import TestHooks.Proofs.Restyling

/-!
# Labels of calls

Where the label `_` is written in calls, runs make the same records with the same success, and extensions of as many
lines. A line is different only if it calls a forwarded function that has a parameter labeled `_`: there `_: ` stands
before the arguments of these parameters (`labels_change_calls`).
-/

namespace TestHooks

/-- The settings with or without the label `_` in calls. -/
def Settings.labeled (settings : Settings) (labels : Bool) : Settings :=
  { settings with wildcardCallLabels := labels }

end TestHooks

namespace TestHooks.Proxy

open TestHooks.Swift TestHooks.Text

/-! ### Arguments -/

/-- The arguments, each with `_: ` in front if its parameter is labeled `_`. -/
def withLabels (ps : List Parameter) (arguments : List String) : List String :=
  ps.zipWith (fun p argument => if p.label = "_" then "_: " ++ argument else argument) arguments

/-- A call with the given arguments. -/
def callWith (target : Target) (f : Function) (arguments : List String) : String :=
  (if f.isThrowing then "try " else "") ++ (if f.isAsync then "await " else "") ++ target.receiverFor (localNames f) ++
    "." ++ f.name ++ "(" ++ joinTexts ", " arguments ++ ")"

/-- The arguments of a call without labels for `_`. -/
def plainArguments (f : Function) : List String := f.parameters.zipWith (argument false) (localNames f)

/-- True if a parameter of the function is labeled `_`. -/
def hasUnlabeled (f : Function) : Bool := f.parameters.any fun p => p.label = "_"

theorem argument_labels (p : Parameter) (name : String) :
    argument true p name = if p.label = "_" then "_: " ++ argument false p name else argument false p name := by
  by_cases hp : p.label = "_"
  · have hunlabeled : p.isUnlabeled = true := beq_iff_eq.2 hp
    simp [argument, hunlabeled, hp]
  · have hunlabeled : p.isUnlabeled = false := beq_eq_false_iff_ne.2 hp
    simp [argument, hunlabeled, hp]

theorem call_plain (target : Target) (f : Function) : call target false f = callWith target f (plainArguments f) := rfl

theorem call_labeled (target : Target) (f : Function) :
    call target true f = callWith target f (withLabels f.parameters (plainArguments f)) := by
  have harguments (ps : List Parameter) (names : List String) :
      ps.zipWith (argument true) names = withLabels ps (ps.zipWith (argument false) names) := by
    induction ps generalizing names with
    | nil => rfl
    | cons p ps ih =>
      cases names with
      | nil => rfl
      | cons name names =>
        rw [List.zipWith_cons_cons, List.zipWith_cons_cons, withLabels, List.zipWith_cons_cons, ih, argument_labels]
        rfl
  rw [plainArguments, ← harguments]
  rfl

/-- Without parameters labeled `_` the calls are the same. -/
theorem call_same (target : Target) {f : Function} (h : hasUnlabeled f = false) :
    call target true f = call target false f := by
  have harguments (p : Parameter) (hp : p ∈ f.parameters) (name : String) :
      argument true p name = argument false p name := by
    have hne : p.label ≠ "_" := by simpa using List.any_eq_false.1 h p hp
    rw [argument_labels, if_neg hne]
  have hzip : f.parameters.zipWith (argument true) (localNames f) =
      f.parameters.zipWith (argument false) (localNames f) := by
    rw [← List.map_uncurry_zip_eq_zipWith, ← List.map_uncurry_zip_eq_zipWith]
    exact List.map_congr_left fun q hq => harguments q.1 (List.of_mem_zip hq).1 q.2
  rw [call, call, hzip]

/-! ### Lines -/

/-- The lines are the same one by one, but for the lines of the calls. In each of these the second has `_: ` before the
arguments of the parameters that are labeled `_`. -/
inductive Relabeled : List (Target × Function) → List String → List String → Prop
  | nil : Relabeled [] [] []
  | same (line : String) {calls : List (Target × Function)} {ls ls' : List String} (h : Relabeled calls ls ls') :
    Relabeled calls (line :: ls) (line :: ls')
  | call (margin : String) (target : Target) {f : Function} (hf : hasUnlabeled f = true)
    {calls : List (Target × Function)} {ls ls' : List String} (h : Relabeled calls ls ls') :
    Relabeled ((target, f) :: calls) ((margin ++ "return " ++ callWith target f (plainArguments f)) :: ls)
      ((margin ++ "return " ++ callWith target f (withLabels f.parameters (plainArguments f))) :: ls')

namespace Relabeled

variable {calls : List (Target × Function)} {ls ls' : List String}

theorem length_eq (h : Relabeled calls ls ls') : ls.length = ls'.length := by
  induction h with
  | nil => rfl
  | same line _ ih => rw [List.length_cons, List.length_cons, ih]
  | call margin target hf _ ih => rw [List.length_cons, List.length_cons, ih]

theorem refl (ls : List String) : Relabeled [] ls ls := by
  induction ls with
  | nil => exact .nil
  | cons line ls ih => exact .same line ih

theorem append {others : List (Target × Function)} {more more' : List String} (h : Relabeled calls ls ls')
    (hmore : Relabeled others more more') : Relabeled (calls ++ others) (ls ++ more) (ls' ++ more') := by
  induction h with
  | nil => exact hmore
  | same line _ ih => exact .same line ih
  | call margin target hf _ ih => exact .call margin target hf ih

end Relabeled

/-- The lines as they are written inside a proxy. -/
def writeInside (indent : String) (ls : List Line) : List String := ls.map fun l => l.inside.write indent

theorem function_relabeled (indent : String) (target : Target) (f : Function) :
    Relabeled (if hasUnlabeled f then [(target, f)] else []) (writeInside indent (functionLines target false f))
      (writeInside indent (functionLines target true f)) := by
  cases hf : hasUnlabeled f with
  | false =>
    have hsame : functionLines target true f = functionLines target false f := by
      rw [functionLines, functionLines, call_same target hf]
    rw [hsame]
    exact .refl _
  | true =>
    have hcall := Relabeled.call (String.join (List.replicate 3 indent)) target hf
      (.refl [Line.write indent ⟨2, "\x7d"⟩])
    rw [← call_plain, ← call_labeled, String.append_assoc, String.append_assoc] at hcall
    exact .same _ hcall

/-- The calls that may be labeled among those of forwarding functions, in their order. -/
def unlabeledCalls (target : Target) (fs : List Function) : List (Target × Function) :=
  (fs.filter hasUnlabeled).map fun f => (target, f)

theorem functions_relabeled (indent : String) (target : Target) (fs : List Function) :
    Relabeled (unlabeledCalls target fs) (writeInside indent (fs.flatMap (functionLines target false)))
      (writeInside indent (fs.flatMap (functionLines target true))) := by
  induction fs with
  | nil => exact .nil
  | cons f fs ih =>
    have hcalls : unlabeledCalls target (f :: fs) =
        (if hasUnlabeled f then [(target, f)] else []) ++ unlabeledCalls target fs := by
      rw [unlabeledCalls, List.filter_cons]
      split <;> rfl
    rw [hcalls, List.flatMap_cons, List.flatMap_cons, writeInside, writeInside, List.map_append, List.map_append]
    exact (function_relabeled indent target f).append ih

/-- The calls in a proxy that may be labeled. -/
def proxyCalls (typeName : String) (c : Classification) : List (Target × Function) :=
  unlabeledCalls ⟨typeName, false, Expansion.referenceFor c⟩ c.instanceFunctions ++
    unlabeledCalls ⟨typeName, true, Expansion.referenceFor c⟩ c.staticFunctions

theorem write_proxyLines (settings : Settings) (labels : Bool) (typeName : String) (c : Classification) :
    (proxyLines (settings.labeled labels) typeName c).map (Line.write settings.indent) =
      (openingLines (Expansion.plan settings typeName c)).map (Line.write settings.indent) ++
        (writeInside settings.indent (memberLines (settings.labeled labels) typeName c) ++
          closingLines.map (Line.write settings.indent)) := by
  rw [proxyLines, List.map_append, List.map_append, List.map_map]
  rfl

theorem proxyLines_relabeled (settings : Settings) (typeName : String) (c : Classification) :
    Relabeled (proxyCalls typeName c)
      ((proxyLines (settings.labeled false) typeName c).map (Line.write settings.indent))
      ((proxyLines (settings.labeled true) typeName c).map (Line.write settings.indent)) := by
  have hmembers : Relabeled (proxyCalls typeName c)
      (writeInside settings.indent (memberLines (settings.labeled false) typeName c))
      (writeInside settings.indent (memberLines (settings.labeled true) typeName c)) := by
    have hfunctions := functions_relabeled settings.indent
    simp only [memberLines, writeInside, List.map_append] at hfunctions ⊢
    exact (Relabeled.refl _).append ((hfunctions _ _).append ((Relabeled.refl _).append (hfunctions _ _)))
  have hbehind := hmembers.append (.refl (closingLines.map (Line.write settings.indent)))
  rw [List.append_nil] at hbehind
  rw [write_proxyLines, write_proxyLines]
  exact (Relabeled.refl _).append hbehind

end TestHooks.Proxy

namespace TestHooks.Expansion

open TestHooks.Proxy TestHooks.Swift TestHooks.Text

section

variable {settings : Settings} (hplaceholder : settings.placeholderType = "Any")
  (hcondition : settings.buildCondition = "DEBUG") {text : String} {a : AnnotatedType}
  (ha : a ∈ foundIn .standard text)

include hplaceholder hcondition ha

/-- The lines of the extensions of a type that gets hooks. -/
theorem lines_relabeled (hkind : supportedKinds.contains a.declaration.kind = true) :
    Relabeled (proxyCalls a.name (.ofMembers (.ofSettings settings) a.declaration.members))
      (lines (extensionOf (settings.labeled false) a.declaration.name a.declaration))
      (lines (extensionOf (settings.labeled true) a.declaration.name a.declaration)) := by
  have hlines (labels : Bool) : lines (extensionOf (settings.labeled labels) a.declaration.name a.declaration) =
      (proxyLines (settings.labeled labels) a.name (.ofMembers (.ofSettings settings) a.declaration.members)).map
        (Line.write settings.indent) := by
    rw [@extension_of_found (settings.labeled labels) hplaceholder _ _ ha hkind]
    exact lines_writeLines (indent_spaces settings)
      (@lines_of_found (settings.labeled labels) hplaceholder _ _ ha hcondition labels _ settings.indentWidth_pos
        hkind).stands (List.cons_ne_nil _ _)
  rw [hlines, hlines]
  exact proxyLines_relabeled settings a.name _

theorem labeled_agrees : (runGenerator (settings.labeled false) testable a.marker a.declaration).Agrees
    (runGenerator (settings.labeled true) testable a.marker a.declaration) :=
  @runs_agree (settings.labeled false) hplaceholder _ _ ha hcondition true _ settings.indentWidth_pos

end

/-- Runs that differ only in whether unlabeled arguments are labeled `_` make the same records with the same success. If
a record succeeds, both runs report the same of it, and the lines of the two extensions are the same one by one, but for
the calls of forwarded functions with parameters labeled `_`. -/
theorem labels_change_calls {settings : Settings} (hplaceholder : settings.placeholderType = "Any")
    (hcondition : settings.buildCondition = "DEBUG") (text : String) :
    let plain := (expandFile .standard (settings.labeled false) text).records
    let labeled := (expandFile .standard (settings.labeled true) text).records
    List.Forall₂ Record.Agrees plain labeled ∧
      ∀ (i : Nat) (r r' : Record), plain[i]? = some r → labeled[i]? = some r' → r.success = true →
        ∃ (a : AnnotatedType) (code code' : String), (foundIn .standard text)[i]? = some a ∧ r.typeName = a.name ∧
          r.extensions = [code] ∧ r'.extensions = [code'] ∧ (lines code).length = (lines code').length ∧
          Relabeled (proxyCalls a.name (.ofMembers (.ofSettings settings) a.declaration.members)) (lines code)
            (lines code') := by
  have hagrees (a : AnnotatedType) (ha : a ∈ foundIn .standard text) := labeled_agrees hplaceholder hcondition ha
  intro plain labeled
  have hplain : plain = (foundIn .standard text).map fun a =>
      runGenerator (settings.labeled false) testable a.marker a.declaration := records_standard _ _
  have hlabeled : labeled = (foundIn .standard text).map fun a =>
      runGenerator (settings.labeled true) testable a.marker a.declaration := records_standard _ _
  rw [hplain, hlabeled]
  refine ⟨?_, fun i r r' hr hr' hsuccess => ?_⟩
  · exact List.forall₂_map_left_iff.2 (List.forall₂_map_right_iff.2 (List.forall₂_same.2 hagrees))
  · rw [List.getElem?_map] at hr hr'
    obtain ⟨a, hi, rfl⟩ := Option.map_eq_some_iff.1 hr
    rw [hi, Option.map_some, Option.some.injEq] at hr'
    subst hr'
    have ha : a ∈ foundIn .standard text := List.mem_of_getElem? hi
    have hsuccess' := (hagrees a ha).success ▸ hsuccess
    have hlines := lines_relabeled hplaceholder hcondition ha (supported_of_success hsuccess)
    exact ⟨a, _, _, hi, (names_ofOutcome _ _ _).2.1.trans (found_spelled ha).declaration_name,
      (extension_of_success hsuccess).1, (extension_of_success hsuccess').1, hlines.length_eq, hlines⟩

/-- A class with a function of one unlabeled and one labeled parameter. -/
def mixedLabelsText : String :=
  "@Testable class A \x7b\n  private var x: Int = 0\n  private func f(_ n: Int, to m: Int) -> Int \x7b n \x7d\n\x7d\n"

def mixedLabelsX : Property := ⟨"x", some "Int", true, ["private"], some "0", some ⟨2, 3⟩⟩

def mixedLabelsF : Function :=
  ⟨"f", [⟨"_", "n", "Int"⟩, ⟨"to", "m", "Int"⟩], "Int", ["private"], false, false, some ⟨3, 3⟩⟩

/-- What `mixedLabelsText` declares. -/
def mixedLabelsDeclaration : Declaration where
  name := "A"
  kind := "class"
  members := [.property mixedLabelsX, .function mixedLabelsF]
  attributes := [⟨"Testable", some ⟨1, 1⟩⟩]
  position := some ⟨1, 1⟩

theorem mixedLabelsText_relabeled :
    ∃ r r' code code', (expandFile .standard (({} : Settings).labeled false) mixedLabelsText).records = [r] ∧
      (expandFile .standard (({} : Settings).labeled true) mixedLabelsText).records = [r'] ∧ r.success = true ∧
      r.Agrees r' ∧ r.extensions = [code] ∧ r'.extensions = [code'] ∧
      Relabeled [(⟨"A", false, "target"⟩, mixedLabelsF)] (lines code) (lines code') ∧
      callWith ⟨"A", false, "target"⟩ mixedLabelsF (plainArguments mixedLabelsF) = "target.f(n, to: m)" ∧
      callWith ⟨"A", false, "target"⟩ mixedLabelsF (withLabels mixedLabelsF.parameters (plainArguments mixedLabelsF)) =
        "target.f(_: n, to: m)" := by
  have hfound : (foundIn .standard mixedLabelsText).map AnnotatedType.declaration = [mixedLabelsDeclaration] := by
    decide +kernel
  have hread : (parse (extensionOf {} mixedLabelsDeclaration.name mixedLabelsDeclaration)).toOption.any
      isSingleExtension = true := by
    rw [parse, Tokens.ofText, extensionOf, toList_writeExtension]
    decide +kernel
  have hc : Classification.ofMembers (.ofSettings {}) mixedLabelsDeclaration.members =
      ⟨[mixedLabelsX], [mixedLabelsF], [], [], []⟩ := by
    decide +kernel
  have hcalls : proxyCalls "A" ⟨[mixedLabelsX], [mixedLabelsF], [], [], []⟩ =
      [(⟨"A", false, "target"⟩, mixedLabelsF)] := by
    decide +kernel
  obtain ⟨a, ha, hdeclaration, hrecord, hsuccess⟩ := sole_record hfound (by decide) hread
  obtain ⟨hagrees, hlines⟩ := @labels_change_calls {} rfl rfl mixedLabelsText
  rw [hrecord, hrecord] at hagrees hlines
  obtain ⟨b, code, code', hb, -, hcode, hcode', -, hrelabeled⟩ := hlines 0 _ _ rfl rfl hsuccess
  rw [ha] at hb
  obtain rfl : a = b := Option.some.inj hb
  have hname : a.name = "A" := by
    have hspelled := found_spelled (ha ▸ List.mem_singleton_self a)
    rw [← hspelled.declaration_name, hdeclaration]
    rfl
  rw [hdeclaration, hc, hname, hcalls] at hrelabeled
  exact ⟨_, _, code, code', hrecord _, hrecord _, hsuccess, (List.forall₂_cons.1 hagrees).1, hcode, hcode',
    hrelabeled, by decide +kernel, by decide +kernel⟩

end TestHooks.Expansion
