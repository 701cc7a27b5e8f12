import TestHooks.Expansion.Roster
import TestHooks.Proofs.Outcomes

/-!
# Failures are isolated

A record has an error, or it has one extension. What a file comes to is read off its records, and each record is the
run of one generator on one declaration: no other generator of the registry has a part in it.
-/

namespace TestHooks.Expansion

open TestHooks.Text

/-! ### Registries -/

namespace Registry

theorem lookup_register_of_ne {name other : String} (registry : Registry) (g : Generator) (h : other ≠ name) :
    (registry.register name g).lookup other = registry.lookup other := by
  have hkeep : (fun entry : String × Generator => decide ((entry.1 != name) = true ∧ (entry.1 == other) = true)) =
      fun entry => entry.1 == other := by
    funext entry
    by_cases hentry : entry.1 = other <;> simp [hentry, h]
  rw [lookup, register, List.find?_cons_of_neg (by simpa using h.symm), List.find?_filter, hkeep, lookup]

theorem isRegistered_register {name : String} {registry : Registry} (g : Generator)
    (h : registry.isRegistered name = true) : (registry.register name g).isRegistered = registry.isRegistered := by
  funext other
  by_cases hother : other = name
  · rw [hother, h, isRegistered, lookup_register]
    rfl
  · rw [isRegistered, isRegistered, lookup_register_of_ne registry g hother]

end Registry

/-! ### Records by their place -/

theorem getElem?_filterMap_of_isSome {α β : Type} {f : α → Option β} {xs : List α}
    (h : ∀ x ∈ xs, (f x).isSome = true) (i : Nat) : (xs.filterMap f)[i]? = xs[i]?.bind f := by
  induction xs generalizing i with
  | nil => rfl
  | cons x xs ih =>
    obtain ⟨y, hy⟩ := Option.isSome_iff_exists.1 (h x List.mem_cons_self)
    rw [List.filterMap_cons_some hy]
    cases i with
    | zero => exact hy.symm
    | succ i => exact ih (fun z hz => h z (List.mem_cons_of_mem x hz)) i

variable {settings : Settings} {text : String}

theorem isSome_runAnnotated {registry : Registry} {x : AnnotatedType} (h : x ∈ foundIn registry text) :
    (runAnnotated registry settings x).isSome = true := by
  rw [runAnnotated, Option.isSome_map]
  exact isRegistered_of_mem_foundIn h

/-- The record of an annotated type stands where the type stands. -/
theorem getElem?_records (registry : Registry) (settings : Settings) (text : String) (i : Nat) :
    (expandFile registry settings text).records[i]? = (foundIn registry text)[i]?.bind (runAnnotated registry settings) := by
  rw [records_expandFile]
  exact getElem?_filterMap_of_isSome (fun x hx => isSome_runAnnotated hx) i

/-- A record of a file is the run of one generator. -/
theorem record_of_found {registry : Registry} (settings : Settings) {i : Nat} {x : AnnotatedType}
    (h : (foundIn registry text)[i]? = some x) :
    ∃ g, registry.lookup x.mark.name = some g ∧
      (expandFile registry settings text).records[i]? = some (runGenerator settings g x.marker x.declaration) := by
  have hregistered := isRegistered_of_mem_foundIn (List.mem_of_getElem? h)
  obtain ⟨g, hg⟩ := Option.isSome_iff_exists.1 hregistered
  refine ⟨g, hg, ?_⟩
  rw [getElem?_records, h, Option.bind_some, runAnnotated, hg]
  rfl

/-- Another generator under another name leaves a record as it is. -/
theorem record_of_register {registry : Registry} {i : Nat} {x : AnnotatedType} {name : String} (g : Generator)
    (h : (foundIn registry text)[i]? = some x) (hregistered : registry.isRegistered name = true)
    (hname : x.mark.name ≠ name) :
    (expandFile (registry.register name g) settings text).records[i]? =
      (expandFile registry settings text).records[i]? := by
  have hfound : foundIn (registry.register name g) text = foundIn registry text := by
    rw [foundIn, foundIn, Registry.isRegistered_register g hregistered]
  rw [getElem?_records, getElem?_records, hfound, h, Option.bind_some, Option.bind_some, runAnnotated, runAnnotated,
    Registry.lookup_register_of_ne registry g hname]

/-! ### Success and failure of a record -/

/-- Success, freedom from errors and a single extension are the same. -/
structure Record.Consistent (r : Record) : Prop where
  success_iff_no_error : r.success = true ↔ ∀ e ∈ r.diagnostics, e.isError = false
  success_iff_extension : r.success = true ↔ ∃ code, r.extensions = [code]
  failed : r.success = false → r.extensions = [] ∧ ∃ e ∈ r.diagnostics, e.isError = true

theorem consistent_ofOutcome {o : Outcome} (h : o.Consistent) (marker : Marker) (d : Declaration) :
    (Record.ofOutcome marker d o).Consistent := by
  have hlisted := diagnostics_ofOutcome h marker d
  rcases h with ⟨code, hok, hsound⟩ | ⟨fault, hmem, hfailed, herror⟩
  · have hr := Record.ofOutcome_ok marker d hok
    refine ⟨⟨fun _ => ?_, fun _ => by rw [hr]⟩, ⟨fun _ => ⟨code, by rw [hr]⟩, fun _ => by rw [hr]⟩, ?_⟩
    · rw [hlisted]
      exact hsound
    · rw [hr]
      intro h
      cases h
  · have hr := Record.ofOutcome_error marker d hfailed
    have hsuccess : (Record.ofOutcome marker d o).success = false := by rw [hr]
    have hnone : (Record.ofOutcome marker d o).extensions = [] := by rw [hr]
    have hlast : ∃ e ∈ (Record.ofOutcome marker d o).diagnostics, e.isError = true := by
      rw [hlisted]
      exact ⟨fault, hmem, herror⟩
    refine ⟨?_, ?_, fun _ => ⟨hnone, hlast⟩⟩
    · rw [hsuccess]
      constructor
      · intro h
        cases h
      · intro h
        obtain ⟨e, he, hbad⟩ := hlast
        rw [h e he] at hbad
        cases hbad
    · rw [hsuccess, hnone]
      constructor
      · intro h
        cases h
      · rintro ⟨code, h⟩
        cases h

theorem consistent_of_mem_records {r : Record} (h : r ∈ (expandFile .standard settings text).records) :
    r.Consistent := by
  rw [records_standard] at h
  obtain ⟨x, -, rfl⟩ := List.mem_map.1 h
  exact consistent_ofOutcome (testable_consistent _ _ _ _) x.marker x.declaration

theorem success_iff_records {ds : List Swift.Decl} (h : Swift.parse text = .ok ds) :
    (expandFile .standard settings text).success = true ↔
      ∀ r ∈ (expandFile .standard settings text).records, r.success = true := by
  rw [success_eq_true_iff, diagnostics_expandFile .standard settings h]
  constructor
  · intro hsound r hr
    rw [(consistent_of_mem_records hr).success_iff_no_error]
    exact fun e he => hsound e (List.mem_flatMap.2 ⟨r, hr, he⟩)
  · intro hall e he
    obtain ⟨r, hr, he⟩ := List.mem_flatMap.1 he
    exact (consistent_of_mem_records hr).success_iff_no_error.1 (hall r hr) e he

/-- Records that fail have nothing to add to the text. -/
theorem extensions_of_successful {rs : List Record} (h : ∀ r ∈ rs, r.Consistent) :
    rs.flatMap Record.extensions = (rs.filter Record.success).flatMap Record.extensions := by
  induction rs with
  | nil => rfl
  | cons r rs ih =>
    have hrest := ih fun x hx => h x (List.mem_cons_of_mem r hx)
    rw [List.flatMap_cons, hrest, List.filter_cons]
    cases hr : r.success with
    | true => rfl
    | false => rw [((h r List.mem_cons_self).failed hr).1]; rfl

/-! ### Whole files -/

theorem code_expandFile {ds : List Swift.Decl} (h : Swift.parse text = .ok ds) :
    (expandFile .standard settings text).code.toList =
      if (foundIn .standard text).map AnnotatedType.span = [] then text.toList
      else
        dropEndWhile (· == '\n') (removeSpans text.toList ((foundIn .standard text).map AnnotatedType.span)) ++
          (((expandFile .standard settings text).records.filter Record.success).flatMap Record.extensions).flatMap
            (fun e => '\n' :: '\n' :: e.toList) ++
          (if text.toList.getLast? = some '\n' then ['\n'] else []) := by
  have hconsistent : ∀ r ∈ (expandFile .standard settings text).records, r.Consistent :=
    fun r hr => consistent_of_mem_records hr
  have hextensions := extensions_of_successful hconsistent
  rw [← hextensions]
  conv_lhs => rw [expandFile_of_ok .standard settings h]
  simp only [List.map_eq_nil_iff, List.isEmpty_iff]
  split
  · rfl
  · rw [String.toList_ofList, layout]

theorem length_records (registry : Registry) (settings : Settings) (text : String) :
    (expandFile registry settings text).records.length = (foundIn registry text).length := by
  rw [records_expandFile, List.filterMap_length_eq_length]
  exact fun x hx => isSome_runAnnotated hx

/-- With the generator of test hooks alone, every record either succeeds, has one extension and no error, or fails,
has no extension and an error. A file that is read succeeds if all its records do, and gets the extensions of those
that do; a file that cannot be read gets one error and nothing else. In any registry a record is the run of the
generator of its attribute on its declaration, whatever the other generators are, and a failure is listed behind what
was recorded unless it is recorded already. -/
theorem failures_are_isolated (registry : Registry) (settings : Settings) (text : String) :
    let result := expandFile .standard settings text
    let spans := (foundIn .standard text).map AnnotatedType.span
    (∀ r ∈ result.records, r.Consistent) ∧
      (match Swift.parse text with
      | .error e => result = ⟨"", [], [⟨.error, e.cause.message, e.position⟩]⟩
      | .ok _ =>
        result.diagnostics = result.records.flatMap Record.diagnostics ∧
          (result.success = true ↔ ∀ r ∈ result.records, r.success = true) ∧
          result.code.toList =
            if spans = [] then text.toList
            else
              dropEndWhile (· == '\n') (removeSpans text.toList spans) ++
                ((result.records.filter Record.success).flatMap Record.extensions).flatMap
                  (fun e => '\n' :: '\n' :: e.toList) ++
                (if text.toList.getLast? = some '\n' then ['\n'] else [])) ∧
      (expandFile registry settings text).records.length = (foundIn registry text).length ∧
      ∀ (i : Nat) (x : AnnotatedType), (foundIn registry text)[i]? = some x →
        ∃ g r, registry.lookup x.mark.name = some g ∧ (expandFile registry settings text).records[i]? = some r ∧
          r = runGenerator settings g x.marker x.declaration ∧
          (∀ fault, (g x.marker x.declaration x.declaration.name settings).result = .error fault →
            let recorded := (g x.marker x.declaration x.declaration.name settings).diagnostics
            r.success = false ∧ r.extensions = [] ∧
              r.diagnostics = recorded ++ if fault ∈ recorded then [] else [fault]) ∧
          ∀ (name : String) (other : Generator), registry.isRegistered name = true → x.mark.name ≠ name →
            (expandFile (registry.register name other) settings text).records[i]? = some r := by
  intro result spans
  refine ⟨fun r hr => consistent_of_mem_records hr, ?_, length_records registry settings text, ?_⟩
  · cases hparse : Swift.parse text with
    | error e => exact expandFile_of_error .standard settings hparse
    | ok ds =>
      exact ⟨diagnostics_expandFile .standard settings hparse, success_iff_records hparse, code_expandFile hparse⟩
  · intro i x hx
    obtain ⟨g, hg, hr⟩ := record_of_found settings hx
    refine ⟨g, _, hg, hr, rfl, ?_, ?_⟩
    · intro fault hfault
      rw [runGenerator, Record.ofOutcome_error _ _ hfault]
      exact ⟨rfl, rfl, rfl⟩
    · intro name other hregistered hname
      rw [record_of_register other hx hregistered hname, hr]

/-- A registry with a generator that fails and one that does not. -/
def mixedRegistry : Registry := ⟨[("Echo", echo "Echo"), ("Broken", failing "Broken")]⟩

def mixedText : String := "@Broken class A {}\n@Echo class B {}"

theorem mixedText_isolated :
    ∃ r r', (expandFile mixedRegistry {} mixedText).records = [r, r'] ∧ r.success = false ∧ r.extensions = [] ∧
      r.diagnostics = [⟨.error, "Broken failed", some ⟨1, 1⟩⟩] ∧ r'.success = true ∧
      (expandFile (mixedRegistry.register "Broken" silent) {} mixedText).records[1]? = some r' := by
  obtain ⟨-, -, -, hrecords⟩ := failures_are_isolated mixedRegistry {} mixedText
  have hmarks : (foundIn mixedRegistry mixedText).map AnnotatedType.marker =
      [⟨"Broken", some ⟨1, 1⟩⟩, ⟨"Echo", some ⟨2, 1⟩⟩] := by decide +kernel
  obtain ⟨x, ys, hfound, hx, hys⟩ := List.map_eq_cons_iff.1 hmarks
  obtain ⟨y, rfl, hy⟩ := List.map_eq_singleton_iff.1 hys
  have hxname : x.mark.name = "Broken" := congrArg Marker.name hx
  have hyname : y.mark.name = "Echo" := congrArg Marker.name hy
  obtain ⟨g, r, hg, hr, -, hfailed, -⟩ := hrecords 0 x (by rw [hfound]; rfl)
  obtain ⟨g', r', hg', hr', hrun, -, hother⟩ := hrecords 1 y (by rw [hfound]; rfl)
  have hbroken : g = failing "Broken" := by
    rw [hxname] at hg
    exact (Option.some.inj hg).symm
  have hecho : g' = echo "Echo" := by
    rw [hyname] at hg'
    exact (Option.some.inj hg').symm
  subst hbroken hecho
  obtain ⟨hfailure, hnone, hlisted⟩ := hfailed ⟨.error, "Broken failed", x.marker.position⟩ rfl
  have htwo : (expandFile mixedRegistry {} mixedText).records = [r, r'] := by
    have hlength := length_records mixedRegistry {} mixedText
    rw [hfound] at hlength
    obtain ⟨a, b, hab⟩ := List.length_eq_two.1 hlength
    rw [hab] at hr hr' ⊢
    rw [Option.some.inj hr, Option.some.inj hr']
  refine ⟨r, r', htwo, hfailure, hnone, ?_, by rw [hrun]; rfl, ?_⟩
  · rw [hlisted, hx]
    rfl
  · exact hother "Broken" silent rfl (by rw [hyname]; decide)

end TestHooks.Expansion
