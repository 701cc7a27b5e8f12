import Mathlib.Data.List.Nodup
import Mathlib.Data.List.Perm.Subperm
import Mathlib.Order.Bounds.Basic
import TestHooks.Proofs.Literals
import TestHooks.Proofs.Lowered
import TestHooks.Proofs.Reports

/-!
# Free names

A name is made free by the least number of underscores in front that makes it none of those taken (`freeName_least`).
The stored instance of a proxy has a name that is free in this way beside all forwarded members, and a note is recorded
on the first of them that stood in the way (`stored_instance_is_free`).
-/

namespace TestHooks.Proxy

open TestHooks.Swift TestHooks.Text

/-! ### Underscores -/

/-- The name with underscores in front. -/
def underscored : Nat → String → String
  | 0, name => name
  | count + 1, name => underscored count ("_" ++ name)

theorem toList_underscored (count : Nat) (name : String) :
    (underscored count name).toList = List.replicate count '_' ++ name.toList := by
  induction count generalizing name with
  | zero => rfl
  | succ count ih => rw [underscored, ih, String.toList_append, List.replicate_succ', List.append_assoc]; rfl

theorem underscored_inj {name : String} {i j : Nat} (h : underscored i name = underscored j name) : i = j := by
  have hlength := congrArg (fun s => s.toList.length) h
  simp only [toList_underscored, List.length_append, List.length_replicate] at hlength
  omega

theorem mem_without {name other : String} {names : List String} :
    other ∈ without name names ↔ other ∈ names ∧ other ≠ name := by
  rw [without, List.mem_filter, bne_iff_ne]

/-- The numbers of underscores that make the name free. -/
def freeCounts (taken : List String) (name : String) : Set Nat :=
  {count | underscored count name ∉ taken}

/-- A name that was tried is left out of the names that are still taken: no name that is tried later is the same. -/
theorem freeName_least (taken : List String) (name : String) :
    ∃ count, IsLeast (freeCounts taken name) count ∧ freeName taken name = underscored count name := by
  fun_induction freeName taken name with
  | case1 taken name htaken ih =>
    obtain ⟨count, ⟨hfree, hleast⟩, hname⟩ := ih
    have hlonger (i : Nat) : underscored i ("_" ++ name) ≠ name := fun h =>
      Nat.succ_ne_zero i (@underscored_inj name (i + 1) 0 h)
    refine ⟨count + 1, ⟨fun hmem => hfree (mem_without.2 ⟨hmem, hlonger count⟩), fun i hi => ?_⟩, hname⟩
    cases i with
    | zero => exact absurd htaken hi
    | succ i => exact Nat.succ_le_succ (hleast fun hmem => hi (mem_without.1 hmem).1)
  | case2 taken name hfree => exact ⟨0, ⟨hfree, fun i _ => Nat.zero_le i⟩, rfl⟩

theorem freeName_not_mem (taken : List String) (name : String) : freeName taken name ∉ taken := by
  obtain ⟨count, ⟨hfree, -⟩, hname⟩ := freeName_least taken name
  rw [hname]
  exact hfree

/-- Only names that the search can come to decide what it finds. -/
theorem freeName_congr {taken others : List String} {name : String}
    (h : ∀ count, underscored count name ∈ taken ↔ underscored count name ∈ others) :
    freeName taken name = freeName others name := by
  obtain ⟨i, hi, hname⟩ := freeName_least taken name
  obtain ⟨j, hj, hname'⟩ := freeName_least others name
  have hcounts : freeCounts taken name = freeCounts others name := Set.ext fun count => not_congr (h count)
  rw [hcounts] at hi
  rw [hname, hname', hi.unique hj]

theorem freeName_eq_self_iff {taken : List String} {name : String} : freeName taken name = name ↔ name ∉ taken := by
  constructor
  · intro h
    rw [← h]
    exact freeName_not_mem taken name
  · intro h
    rw [freeName, if_neg h]

/-- The search ends: each name that is tried in vain is one of those taken. -/
theorem least_le_length {taken : List String} {name : String} {count : Nat}
    (h : IsLeast (freeCounts taken name) count) : count ≤ taken.length := by
  have htaken : (List.range count).map (underscored · name) ⊆ taken := by
    intro other hother
    obtain ⟨i, hi, rfl⟩ := List.mem_map.1 hother
    by_contra hfree
    exact Nat.not_le_of_lt (List.mem_range.1 hi) (h.2 hfree)
  have hnodup : ((List.range count).map (underscored · name)).Nodup :=
    List.Nodup.map (fun _ _ => underscored_inj) List.nodup_range
  have hlength := hnodup.length_le_of_subset htaken
  rwa [List.length_map, List.length_range] at hlength

/-! ### Backticks -/

theorem plainName_eq_self {name : String} (h : backtick ∉ name.toList) : plainName name = name := by
  have hnone : ∀ c ∈ name.toList, (c == backtick) = false := fun c hc =>
    beq_eq_false_iff_ne.2 fun hx => h (hx ▸ hc)
  have hhead : name.toList.head?.any (· == backtick) = false := by
    rw [Option.any_eq_false]
    exact fun c hc => hnone c (List.mem_of_mem_head? hc)
  have hlast : name.toList.getLast?.any (· == backtick) = false := by
    rw [Option.any_eq_false]
    exact fun c hc => hnone c (List.mem_of_getLast? hc)
  rw [plainName, trimWhile_eq_self hhead hlast, String.ofList_toList]

theorem plainName_word {name : String} (h : IsWord name) : plainName name = name := by
  obtain ⟨c, cs, hname, hc, hcs⟩ := h
  have hb : isWordChar backtick = false := by decide
  rw [isWordStart, Bool.and_eq_true] at hc
  apply plainName_eq_self
  rw [hname]
  intro hm
  rcases List.mem_cons.1 hm with rfl | hm
  · exact Bool.eq_false_iff.1 hb hc.1
  · exact Bool.eq_false_iff.1 hb (hcs _ hm)

/-! ### The stored instance -/

/-- The name of the stored instance beside members of any names. -/
theorem reference_least (names : List String) :
    ∃ count ≤ names.length, IsLeast (freeCounts (names.map plainName) "target") count ∧
      reference names = underscored count "target" := by
  obtain ⟨count, hleast, hname⟩ := freeName_least (names.map plainName) "target"
  have hlength := least_le_length hleast
  rw [List.length_map] at hlength
  exact ⟨count, hlength, hleast, hname⟩

end TestHooks.Proxy

namespace TestHooks.Expansion

open TestHooks.Proxy

variable {settings : Settings} {d : Declaration}

theorem plainName_ne_referenceFor {c : Classification} {m : Member} (hm : m ∈ c.forwarded) :
    plainName m.name ≠ referenceFor c := by
  intro h
  refine freeName_not_mem ((c.forwarded.map Member.name).map plainName) plainReference ?_
  change referenceFor c ∈ (c.forwarded.map Member.name).map plainName
  rw [← h]
  exact List.mem_map_of_mem (List.mem_map_of_mem hm)

theorem referenceFor_eq_plain_iff (c : Classification) :
    referenceFor c = plainReference ↔ ∀ m ∈ c.forwarded, plainName m.name ≠ plainReference := by
  rw [referenceFor, reference, freeName_eq_self_iff]
  simp

/-- There is a member to write the note about whenever the stored instance has another name. -/
theorem isSome_collisionNotice?_iff (c : Classification) :
    (collisionNotice? c).isSome ↔ ∃ m ∈ c.forwarded, plainName m.name = plainReference := by
  simp [collisionNotice?, List.find?_isSome]

theorem collisionNotice?_cases {c : Classification} {note : Diagnostic} (h : collisionNotice? c = some note) :
    ∃ before m after, c.forwarded = before ++ m :: after ∧ plainName m.name = plainReference ∧
      (∀ x ∈ before, plainName x.name ≠ plainReference) ∧
      note = ⟨.note, "'" ++ m.name ++ "' collides with the proxy's stored '" ++ plainReference ++
        "'; the proxy stores the instance as '" ++ referenceFor c ++ "'", m.position⟩ := by
  obtain ⟨m, hfind, rfl⟩ := Option.map_eq_some_iff.1 h
  obtain ⟨hm, before, after, hsplit, hbefore⟩ := List.find?_eq_some_iff_append.1 hfind
  exact ⟨before, m, after, hsplit, beq_iff_eq.1 hm, fun x hx => by simpa using hbefore x hx, rfl⟩

/-- The stored instance has the name `target` with the least number of underscores in front that makes it none of any
names, backticks aside. So no forwarded member has the name of the stored instance, and a note is recorded, between the
notices on members that are left out and the warnings on types, if and only if a forwarded member is called `target`: on
the first of them, which is there whenever the stored instance has another name. -/
theorem stored_instance_is_free (marker : Marker) (typeName : String) (hkind : d.kind ∈ ["class", "struct", "enum"]) :
    let c := Classification.ofMembers (.ofSettings settings) d.members
    let stored := (plan settings typeName c).reference
    let typing := Typing.ofSettings settings
    let recorded := fun ds : List Diagnostic => ds.map (·.promote settings.strictMode)
    let warnings := c.instanceProperties.filterMap typing.warning? ++ c.staticProperties.filterMap typing.warning?
    (∀ names, ∃ count ≤ names.length, IsLeast {i | underscored i "target" ∉ names.map plainName} count ∧
        reference names = underscored count "target") ∧
      stored = reference (c.forwarded.map Member.name) ∧
      (∀ m ∈ c.forwarded, plainName m.name ≠ stored) ∧
      (∃ faults, (∀ e ∈ faults, e.isError = true) ∧ (testable marker d typeName settings).diagnostics =
        recorded (c.skipped.map skippedNotice) ++ (collisionNotice? c).toList ++ recorded warnings ++ faults) ∧
      ((collisionNotice? c).isSome ↔ ∃ m ∈ c.forwarded, plainName m.name = "target") ∧
      (stored ≠ "target" ↔ (collisionNotice? c).isSome) ∧
      ∀ note, collisionNotice? c = some note →
        ∃ before m after, c.forwarded = before ++ m :: after ∧ plainName m.name = "target" ∧
          (∀ x ∈ before, plainName x.name ≠ "target") ∧
          note = ⟨.note, "'" ++ m.name ++ "' collides with the proxy's stored 'target'; " ++
            "the proxy stores the instance as '" ++ stored ++ "'", m.position⟩ := by
  intro c stored typing recorded warnings
  refine ⟨reference_least, rfl, fun m hm => plainName_ne_referenceFor hm, ?recorded, isSome_collisionNotice?_iff c,
    ?renamed, ?first⟩
  case recorded =>
    have hsupported : supportedKinds.contains d.kind = true := List.contains_iff_mem.2 hkind
    have hnote : (collisionNotice? c).toList.map (·.promote settings.strictMode) = (collisionNotice? c).toList := by
      cases hc : collisionNotice? c with
      | none => rfl
      | some note =>
        obtain ⟨-, m, -, -, -, -, rfl⟩ := collisionNotice?_cases hc
        rw [Option.toList_some, List.map_singleton, Diagnostic.promote_of_not_warning _ rfl]
    rw [testable_supported marker typeName hsupported, diagnostics_settle]
    refine ⟨_, ?_, congrArg (· ++ _) ?_⟩
    · intro e he
      split at he
      · cases he
      · exact isError_of_complaint? (Option.mem_toList.1 he)
    · rw [noticesOf, notices, List.append_assoc (_ ++ _), List.map_append, List.map_append, hnote]
  case renamed =>
    rw [isSome_collisionNotice?_iff]
    have hplain := not_congr (referenceFor_eq_plain_iff c)
    rw [ne_eq]
    refine hplain.trans ?_
    push Not
    rfl
  case first =>
    intro note hnote
    obtain ⟨before, m, after, hsplit, hm, hbefore, rfl⟩ := collisionNotice?_cases hnote
    refine ⟨before, m, after, hsplit, hm, hbefore, ?_⟩
    simp only [plainReference, String.append_assoc]
    rfl

/-- A class with a static function and an instance property that both have the name of the stored instance, and a
function with the next name that would be tried. -/
def crowdedDeclaration : Declaration where
  name := "Shelf"
  kind := "class"
  members :=
    [.function ⟨"target", [], "", ["private", "static"], false, false, some ⟨2, 3⟩⟩,
      .property ⟨"`target`", some "Int", true, ["private"], none, some ⟨3, 3⟩⟩,
      .function ⟨"_target", [], "", ["private"], false, false, some ⟨4, 3⟩⟩,
      .property ⟨"__target", some "Int", true, ["public"], none, some ⟨5, 3⟩⟩]
  attributes := [⟨"Testable", some ⟨1, 1⟩⟩]
  position := some ⟨1, 1⟩

theorem crowdedDeclaration_stores :
    crowdedDeclaration.kind ∈ ["class", "struct", "enum"] ∧
      let c := Classification.ofMembers (.ofSettings {}) crowdedDeclaration.members
      (plan {} "Shelf" c).reference = "__target" ∧ (∀ m ∈ c.forwarded, plainName m.name ≠ "__target") ∧
        collisionNotice? c = some ⟨.note, "'`target`' collides with the proxy's stored 'target'; " ++
          "the proxy stores the instance as '__target'", some ⟨3, 3⟩⟩ := by
  have hkind : crowdedDeclaration.kind ∈ ["class", "struct", "enum"] := by decide
  obtain ⟨-, -, hfree, -⟩ :=
    @stored_instance_is_free {} crowdedDeclaration ⟨"Testable", some ⟨1, 1⟩⟩ "Shelf" hkind
  have hstored : (plan {} "Shelf" (Classification.ofMembers (.ofSettings {}) crowdedDeclaration.members)).reference =
      "__target" := by decide +kernel
  refine ⟨hkind, hstored, fun m hm => hstored ▸ hfree m hm, ?_⟩
  decide +kernel

end TestHooks.Expansion
