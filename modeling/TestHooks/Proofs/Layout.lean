import TestHooks.Proofs.Annotated
import TestHooks.Proofs.Removal

/-!
# What an expansion does to the text

An expansion keeps the text of a file except for the attributes that it consumes, and puts the extensions behind
it.
-/

namespace TestHooks.Expansion

open TestHooks.Swift TestHooks.Text

theorem spans_apart {text : String} {ds : List Decl} (registered : String → Bool)
    (h : Swift.parse text = .ok ds) :
    Apart text.toList ((annotatedAmong registered none ds).map AnnotatedType.span) := by
  rw [annotatedAmong_of_parse registered h]
  exact marks_apart registered h List.filter_sublist

/-- The text that is left when the spans are removed and the line breaks at the end are taken off. -/
theorem keep_of_apart {cs : List Char} {spans : List Span} (h : Apart cs spans) (hne : spans ≠ []) :
    ∃ E, dropEndWhile (· == '\n') (removeSpans cs spans) = keepFrom E 0 cs ∧
      (∀ s ∈ spans, ∀ i, s.Covers i → E i = true) ∧
      ∀ i, E i = true → GoesWith cs spans E i ∨ ∀ k, i ≤ k → k < cs.length → cs[k]? = some '\n' := by
  obtain ⟨D, hfold, hD⟩ := h.drops
  obtain ⟨q, c, hq, hc, hle⟩ := h.followed hne
  obtain ⟨E, hE, hDE, hreason⟩ := hD.dropEndWhile hq hc hle fun s hs => (h.stands s hs).start_lt_stop
  refine ⟨E, ?_, ?_, hreason⟩
  · rw [h.removeSpans_perm (List.Perm.refl spans), hfold, hE]
  · intro s hs i hi
    exact hDE i (hD.inside s hs i hi)

/-- An expansion that finds nothing gives the text back. Otherwise it gives the text without some characters, the
extensions of all records behind empty lines, and a line break if the text ends in one. What is dropped are the
consumed attributes, blanks around them on their lines, the break of a line on which nothing else is left, and line
breaks at the end of the text. The attributes may be listed in any order. -/
theorem expandFile_keeps_text {text : String} {ds : List Decl} (registry : Registry) (settings : Settings)
    (h : Swift.parse text = .ok ds) :
    let found := annotatedAmong registry.isRegistered none ds
    let spans := found.map AnnotatedType.span
    let result := expandFile registry settings text
    (found = [] → result.code = text) ∧
      (found ≠ [] → ∃ dropped,
        result.code.toList = keepFrom dropped 0 text.toList ++
          (result.records.flatMap Record.extensions).flatMap (fun e => '\n' :: '\n' :: e.toList) ++
          (if text.toList.getLast? = some '\n' then ['\n'] else []) ∧
        (∀ s ∈ spans, ∀ i, s.Covers i → dropped i = true) ∧
        ∀ i, dropped i = true → GoesWith text.toList spans dropped i ∨
          ∀ k, i ≤ k → k < text.toList.length → text.toList[k]? = some '\n') ∧
      ∀ listed : List Span, listed.Perm spans → removeSpans text.toList listed = removeSpans text.toList spans := by
  intro found spans result
  have hapart : Apart text.toList spans := spans_apart registry.isRegistered h
  refine ⟨?_, ?_, ?_⟩
  · intro hnone
    change (expandFile registry settings text).code = text
    unfold expandFile
    rw [h]
    dsimp only
    rw [if_pos (by rw [List.isEmpty_iff]; exact hnone)]
  · intro hsome
    have hne : spans ≠ [] := by
      intro he
      exact hsome (List.map_eq_nil_iff.1 he)
    obtain ⟨E, hE, hinside, hreason⟩ := keep_of_apart hapart hne
    refine ⟨E, ?_, hinside, hreason⟩
    have hresult : result = ⟨String.ofList (layout text.toList spans ((found.filterMap
        (runAnnotated registry settings)).flatMap Record.extensions)), found.filterMap (runAnnotated registry settings),
        (found.filterMap (runAnnotated registry settings)).flatMap Record.diagnostics⟩ := by
      change expandFile registry settings text = _
      unfold expandFile
      rw [h]
      dsimp only
      rw [if_neg (by rw [List.isEmpty_iff]; exact hsome)]
    rw [hresult, String.toList_ofList, layout, hE]
  · intro listed hp
    rw [hapart.removeSpans_perm hp, hapart.removeSpans_perm (List.Perm.refl spans)]

/-- A file with attributes inline, alone on a line, beside one that stays, and two on one line. -/
def annotatedText : String :=
  "@objc @Testable class A \x7b private var x: Int \x7d\n@Testable\nstruct B \x7b\x7d\n  @Testable @Testable \nenum C \x7b\x7d\n\n"

theorem annotatedText_expanded :
    ∃ ds, Swift.parse annotatedText = .ok ds ∧
      (annotatedAmong Registry.standard.isRegistered none ds).map AnnotatedType.name = ["A", "B", "C", "C"] ∧
      ∃ dropped, (expandFile .standard {} annotatedText).code.toList = keepFrom dropped 0 annotatedText.toList ++
        ((expandFile .standard {} annotatedText).records.flatMap Record.extensions).flatMap
          (fun e => '\n' :: '\n' :: e.toList) ++ ['\n'] := by
  have hr : (Swift.parse annotatedText).toOption.any (fun ds =>
      (annotatedAmong Registry.standard.isRegistered none ds).map AnnotatedType.name == ["A", "B", "C", "C"]) = true := by
    decide +kernel
  obtain ⟨ds, hds, hfound⟩ := exists_ok hr
  rw [beq_iff_eq] at hfound
  have hne : annotatedAmong Registry.standard.isRegistered none ds ≠ [] := by
    intro he
    rw [he] at hfound
    cases hfound
  obtain ⟨dropped, hcode, -, -⟩ := (expandFile_keeps_text .standard {} hds).2.1 hne
  have hlast : annotatedText.toList.getLast? = some '\n' := by decide +kernel
  rw [if_pos hlast] at hcode
  exact ⟨ds, hds, hfound, dropped, hcode⟩

end TestHooks.Expansion
