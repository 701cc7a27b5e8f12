import TestHooks.Proofs.Restyling

/-!
# Indentation

However far code is moved in, runs make the same records with the same success, and an extension has the same lines at
the same levels (`indentation_is_cosmetic`). Members are moved in twice, once in themselves and once where they stand in
the proxy, and the levels add up.
-/

namespace TestHooks

open TestHooks.Text

/-- The settings with another width of a level. -/
def Settings.indented (settings : Settings) (width : Nat) (hwidth : 0 < width) : Settings :=
  { settings with indentWidth := width, indentWidth_pos := hwidth }

namespace Proxy

/-- A line is moved in by as many spaces as its levels take. -/
theorem write_spaces (width : Nat) (l : Line) : l.write (spaces width) = spaces (width * l.level) ++ l.text := by
  have hmargin (level : Nat) : String.join (List.replicate level (spaces width)) = spaces (width * level) := by
    rw [← String.toList_inj, String.toList_join]
    induction level with
    | zero => rfl
    | succ level ih =>
      simp only [spaces, String.toList_ofList] at ih ⊢
      rw [List.replicate_succ', List.flatMap_append, ih, List.flatMap_singleton, String.toList_ofList,
        List.replicate_append_replicate, Nat.mul_succ]
  rw [Line.write, hmargin]

end Proxy

namespace Expansion

open TestHooks.Proxy TestHooks.Swift

/-- Runs that differ only in the width of a level make the same records with the same success. For each record there are
lines with levels that do not depend on the width: if the record succeeds, each is one line without blanks in front, and
the extension is these lines, moved in by the width for each level. -/
theorem indentation_is_cosmetic {settings : Settings} (hplaceholder : settings.placeholderType = "Any")
    (hcondition : settings.buildCondition = "DEBUG") (text : String) :
    let records (width : Nat) (hwidth : 0 < width) :=
      (expandFile .standard (settings.indented width hwidth) text).records
    (∀ (width width' : Nat) (hwidth : 0 < width) (hwidth' : 0 < width'),
        List.Forall₂ Record.Agrees (records width hwidth) (records width' hwidth')) ∧
      ∃ sheets : List (List Line), ∀ (width : Nat) (hwidth : 0 < width),
        List.Forall₂ (fun sheet record => record.success = true → (∀ l ∈ sheet, Titled l.text.toList) ∧
            record.extensions = [joinTexts "\n" (sheet.map fun l => spaces (width * l.level) ++ l.text)])
          sheets (records width hwidth) := by
  intro records
  have hrecords (width : Nat) (hwidth : 0 < width) : records width hwidth = (foundIn .standard text).map fun a =>
      runGenerator (settings.indented width hwidth) testable a.marker a.declaration := records_standard _ _
  constructor
  · intro width width' hwidth hwidth'
    rw [hrecords, hrecords]
    refine List.forall₂_map_left_iff.2 (List.forall₂_map_right_iff.2 (List.forall₂_same.2 fun a ha => ?_))
    exact @runs_agree (settings.indented width hwidth) hplaceholder _ _ ha hcondition settings.wildcardCallLabels _
      hwidth'
  · refine ⟨(foundIn .standard text).map fun a =>
      proxyLines settings a.name (.ofMembers (.ofSettings settings) a.declaration.members), fun width hwidth => ?_⟩
    rw [hrecords]
    refine List.forall₂_map_left_iff.2 (List.forall₂_map_right_iff.2 (List.forall₂_same.2 fun a ha hsuccess => ?_))
    have hkind := supported_of_success hsuccess
    have hstands := (lines_of_found hplaceholder ha hcondition settings.wildcardCallLabels hwidth hkind).stands
    refine ⟨fun l hl => (hstands l hl).titled, ?_⟩
    have hwritten := @extension_of_found (settings.indented width hwidth) hplaceholder _ _ ha hkind
    rw [(extension_of_success hsuccess).1, hwritten]
    have hlines : Line.write (settings.indented width hwidth).indent =
        fun l => spaces (width * l.level) ++ l.text := funext (write_spaces width)
    rw [writeLines, unlines, hlines]
    rfl

/-- A structure with one constant. -/
def constantText : String := "@Testable struct S \x7b private let x: Int \x7d"

/-- What `constantText` declares. -/
def constantDeclaration : Declaration where
  name := "S"
  kind := "struct"
  members := [.property ⟨"x", some "Int", false, ["private"], none, some ⟨1, 22⟩⟩]
  attributes := [⟨"Testable", some ⟨1, 1⟩⟩]
  position := some ⟨1, 1⟩

theorem constantText_indented :
    ∃ (sheet : List Line) (record record' : Record),
      (expandFile .standard (({} : Settings).indented 1 (by decide)) constantText).records = [record] ∧
        (expandFile .standard (({} : Settings).indented 3 (by decide)) constantText).records = [record'] ∧
        record.success = true ∧ record'.success = true ∧
        record.extensions = [joinTexts "\n" (sheet.map fun l => spaces (1 * l.level) ++ l.text)] ∧
        record'.extensions = [joinTexts "\n" (sheet.map fun l => spaces (3 * l.level) ++ l.text)] := by
  have hfound : (foundIn .standard constantText).map AnnotatedType.declaration = [constantDeclaration] := by
    decide +kernel
  have hread : (parse (extensionOf {} constantDeclaration.name constantDeclaration)).toOption.any isSingleExtension =
      true := by
    rw [parse, Tokens.ofText, extensionOf, toList_writeExtension]
    decide +kernel
  obtain ⟨a, -, -, hrecord, hsuccess⟩ := sole_record hfound (by decide) hread
  obtain ⟨hagrees, sheets, hsheets⟩ := @indentation_is_cosmetic {} rfl rfl constantText
  simp only [hrecord] at hagrees hsheets
  have hsame (width : Nat) (hwidth : 0 < width) :
      (runGenerator (({} : Settings).indented width hwidth) testable a.marker a.declaration).success = true :=
    (List.forall₂_cons.1 (hagrees 4 width (by decide) hwidth)).1.success ▸ hsuccess
  obtain ⟨sheet, rest, hsheet, -, rfl⟩ := List.forall₂_cons_right_iff.1 (hsheets 1 (by decide))
  have hthree := (List.forall₂_cons.1 (hsheets 3 (by decide))).1
  exact ⟨sheet, _, _, hrecord _, hrecord _, hsame 1 _, hsame 3 _, (hsheet (hsame 1 _)).2, (hthree (hsame 3 _)).2⟩

end Expansion

end TestHooks
