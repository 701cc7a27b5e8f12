import TestHooks.Proofs.Agreement
import TestHooks.Proofs.FreeNames

/-!
# Local names

A forwarding function reads its parameters by local names: those that can be read keep their names, and the others get
placeholders. A placeholder does not depend on the placeholders before it (`localNames_eq`). Two local names are the same
but for backticks only if a name in backticks is a placeholder without them (`localNames_distinct_iff`).
-/

namespace TestHooks.Proxy

open TestHooks.Swift TestHooks.Text

/-! ### Placeholders -/

/-- The name that is made up for the parameter at `index` beside parameters of these names. -/
def placeholder (names : List String) (index : Nat) : String :=
  freeName names ("arg" ++ toString index)

theorem placeholder_least (names : List String) (index : Nat) :
    ∃ count, IsLeast (freeCounts names ("arg" ++ toString index)) count ∧
      placeholder names index = underscored count ("arg" ++ toString index) :=
  freeName_least names _

theorem word_placeholder (names : List String) (index : Nat) : IsWord (placeholder names index) :=
  word_freeName (word_numbered index)

/-- Placeholders of different parameters differ, whatever the underscores in front. -/
theorem underscored_numbered_inj {i j m n : Nat}
    (h : underscored i ("arg" ++ toString m) = underscored j ("arg" ++ toString n)) : m = n := by
  have hlist := congrArg (fun s => s.toList.dropWhile (· == '_')) h
  have hdrop (count : Nat) (index : Nat) :
      (underscored count ("arg" ++ toString index)).toList.dropWhile (· == '_') = "arg".toList ++ Nat.toDigits 10 index := by
    have hall : ∀ c ∈ List.replicate count '_', (c == '_') = true := fun c hc =>
      beq_iff_eq.2 (List.eq_of_mem_replicate hc)
    rw [toList_underscored, List.dropWhile_append_of_pos hall, String.toList_append, Nat.toString_eq_repr,
      Nat.toList_repr]
    rfl
  rw [hdrop, hdrop] at hlist
  have hdigits := congrArg (Nat.ofDigitChars 10 · 0) (List.append_cancel_left hlist)
  simpa only [Nat.ofDigitChars_toDigits (by decide : 1 < 10) (by decide : 10 ≤ 10)] using hdigits

theorem placeholder_inj {names : List String} {m n : Nat} (h : placeholder names m = placeholder names n) : m = n := by
  obtain ⟨i, -, hm⟩ := placeholder_least names m
  obtain ⟨j, -, hn⟩ := placeholder_least names n
  rw [hm, hn] at h
  exact underscored_numbered_inj h

/-! ### Local names -/

/-- The local name of the parameter at `index` beside parameters of these names. -/
def localName (names : List String) (index : Nat) (p : Parameter) : String :=
  if p.name = wildcard then placeholder names index else p.name

/-- The names that are taken grow by placeholders of parameters before, which no later search comes to. -/
theorem localNamesFrom_eq {names taken : List String} {index : Nat} (ps : List Parameter)
    (h : ∀ i, index ≤ i → ∀ count, underscored count ("arg" ++ toString i) ∈ taken ↔
      underscored count ("arg" ++ toString i) ∈ names) :
    localNamesFrom index taken ps = ps.mapIdx fun i p => localName names (index + i) p := by
  induction ps generalizing index taken with
  | nil => rfl
  | cons p ps ih =>
    have hnext (i : Nat) (p : Parameter) : localName names (index + (i + 1)) p = localName names (index + 1 + i) p := by
      rw [Nat.add_right_comm index 1 i, Nat.add_assoc]
    rw [localNamesFrom, List.mapIdx_cons]
    simp only [hnext, Nat.add_zero]
    rw [localName]
    split
    · have hplaceholder : freeName taken ("arg" ++ toString index) = placeholder names index :=
        freeName_congr (h index (Nat.le_refl index))
      have hlater : ∀ i, index + 1 ≤ i → ∀ count, underscored count ("arg" ++ toString i) ∈
          placeholder names index :: taken ↔ underscored count ("arg" ++ toString i) ∈ names := by
        intro i hi count
        obtain ⟨used, -, hused⟩ := placeholder_least names index
        have hother : underscored count ("arg" ++ toString i) ≠ placeholder names index := by
          rw [hused]
          exact fun hx => Nat.ne_of_gt hi (underscored_numbered_inj hx)
        rw [List.mem_cons, or_iff_right hother]
        exact h i (Nat.le_of_succ_le hi) count
      rw [hplaceholder, ih hlater]
    · rw [ih fun i hi count => h i (Nat.le_of_succ_le hi) count]

theorem localNames_eq (f : Function) :
    localNames f = f.parameters.mapIdx (localName (f.parameters.map Parameter.name)) := by
  rw [localNames, localNamesFrom_eq f.parameters fun _ _ _ => Iff.rfl]
  simp only [Nat.zero_add]

theorem getElem?_localNames (f : Function) (i : Nat) :
    (localNames f)[i]? = f.parameters[i]?.map (localName (f.parameters.map Parameter.name) i) := by
  rw [localNames_eq, List.getElem?_mapIdx]

theorem mem_localNames {f : Function} {name : String} :
    name ∈ localNames f ↔ (∃ p ∈ f.parameters, p.name ≠ wildcard ∧ p.name = name) ∨
      ∃ i p, f.parameters[i]? = some p ∧ p.name = wildcard ∧ placeholder (f.parameters.map Parameter.name) i = name := by
  rw [List.mem_iff_getElem?]
  constructor
  · rintro ⟨i, hi⟩
    rw [getElem?_localNames, Option.map_eq_some_iff] at hi
    obtain ⟨p, hp, rfl⟩ := hi
    by_cases hw : p.name = wildcard
    · exact .inr ⟨i, p, hp, hw, (if_pos hw).symm⟩
    · exact .inl ⟨p, List.mem_of_getElem? hp, hw, (if_neg hw).symm⟩
  · rintro (⟨p, hp, hw, rfl⟩ | ⟨i, p, hp, hw, rfl⟩)
    · obtain ⟨i, hi⟩ := List.mem_iff_getElem?.1 hp
      exact ⟨i, by rw [getElem?_localNames, hi, Option.map_some, localName, if_neg hw]⟩
    · exact ⟨i, by rw [getElem?_localNames, hp, Option.map_some, localName, if_pos hw]⟩

/-! ### Distinct names -/

section

variable {f : Function} {view : String → String}

/-- Two parameters that can be read have different names. -/
theorem readable_ne (h : ((f.parameters.filter (·.name != wildcard)).map fun p => view p.name).Nodup) {i j : Nat}
    {p q : Parameter} (hp : f.parameters[i]? = some p) (hq : f.parameters[j]? = some q) (hij : i < j)
    (hpw : p.name ≠ wildcard) (hqw : q.name ≠ wildcard) : view p.name ≠ view q.name := by
  rw [List.Nodup, List.pairwise_map, List.pairwise_filter, List.pairwise_iff_getElem] at h
  obtain ⟨hi, rfl⟩ := List.getElem?_eq_some_iff.1 hp
  obtain ⟨hj, rfl⟩ := List.getElem?_eq_some_iff.1 hq
  exact h i j hi hj hij (bne_iff_ne.2 hpw) (bne_iff_ne.2 hqw)

/-- Under a view that shows placeholders as they are, local names are distinct if no name that can be read looks like a
placeholder. -/
theorem nodup_localNames_iff (hview : ∀ i, view (placeholder (f.parameters.map Parameter.name) i) =
      placeholder (f.parameters.map Parameter.name) i)
    (h : ((f.parameters.filter (·.name != wildcard)).map fun p => view p.name).Nodup) :
    ((localNames f).map view).Nodup ↔ ∀ i p, f.parameters[i]? = some p → p.name = wildcard →
      ∀ q ∈ f.parameters, q.name ≠ wildcard → view q.name ≠ placeholder (f.parameters.map Parameter.name) i := by
  have hat {i : Nat} {p : Parameter} (hp : f.parameters[i]? = some p) :
      ((localNames f).map view)[i]? = some (view (localName (f.parameters.map Parameter.name) i p)) := by
    rw [List.getElem?_map, getElem?_localNames, hp, Option.map_some, Option.map_some]
  have hlength : ((localNames f).map view).length = f.parameters.length := by
    rw [List.length_map, length_localNames]
  constructor
  · intro hnodup i p hp hpw q hq hqw hx
    obtain ⟨j, hj⟩ := List.mem_iff_getElem?.1 hq
    have hi : i < ((localNames f).map view).length := by
      rw [hlength]
      exact (List.getElem?_eq_some_iff.1 hp).1
    have hij : i = j := by
      refine (List.getElem?_inj hi hnodup).1 ?_
      rw [hat hp, hat hj, localName, localName, if_pos hpw, if_neg hqw, hview, hx]
    rw [hij, hj] at hp
    cases hp
    exact hqw hpw
  · intro hfree
    rw [List.nodup_iff_getElem?_ne_getElem?]
    intro i j hij hj
    rw [hlength] at hj
    obtain ⟨p, hp⟩ : ∃ p, f.parameters[i]? = some p := ⟨_, List.getElem?_eq_getElem (Nat.lt_trans hij hj)⟩
    obtain ⟨q, hq⟩ : ∃ q, f.parameters[j]? = some q := ⟨_, List.getElem?_eq_getElem hj⟩
    rw [hat hp, hat hq, ne_eq, Option.some.injEq, localName, localName]
    by_cases hpw : p.name = wildcard <;> by_cases hqw : q.name = wildcard
    · rw [if_pos hpw, if_pos hqw, hview, hview]
      exact fun hx => Nat.ne_of_lt hij (placeholder_inj hx)
    · rw [if_pos hpw, if_neg hqw, hview]
      exact (hfree i p hp hpw q (List.mem_of_getElem? hq) hqw).symm
    · rw [if_neg hpw, if_pos hqw, hview]
      exact hfree j q hq hqw p (List.mem_of_getElem? hp) hpw
    · rw [if_neg hpw, if_neg hqw]
      exact readable_ne h hp hq hij hpw hqw

end

/-- If the names that can be read are distinct, backticks aside, then each parameter has one local name, which is its own
if that can be read and never a wildcard; a placeholder has the least number of underscores that makes it none of the
parameters' names, and local names are distinct as they are written. With backticks left aside they are distinct if and
only if no name that can be read is then a placeholder. -/
theorem localNames_distinct_iff {f : Function}
    (h : ((f.parameters.filter (·.name != wildcard)).map fun p => plainName p.name).Nodup) :
    let names := f.parameters.map Parameter.name
    (localNames f).length = f.parameters.length ∧
      (∀ i p, f.parameters[i]? = some p →
        (localNames f)[i]? = some (if p.name = wildcard then placeholder names i else p.name)) ∧
      (∀ i, ∃ count, IsLeast {k | underscored k ("arg" ++ toString i) ∉ names} count ∧
        placeholder names i = underscored count ("arg" ++ toString i)) ∧
      wildcard ∉ localNames f ∧
      (localNames f).Nodup ∧
      (((localNames f).map plainName).Nodup ↔ ∀ i p, f.parameters[i]? = some p → p.name = wildcard →
        ∀ q ∈ f.parameters, q.name ≠ wildcard → plainName q.name ≠ placeholder names i) := by
  intro names
  refine ⟨length_localNames f, fun i p hp => ?own, placeholder_least names, localNames_readable f, ?written,
    nodup_localNames_iff (fun i => plainName_word (word_placeholder names i)) h⟩
  case own =>
    rw [getElem?_localNames, hp]
    rfl
  case written =>
    have hwritten : ((f.parameters.filter (·.name != wildcard)).map fun p => id p.name).Nodup := by
      have hplain : (fun p : Parameter => plainName p.name) = plainName ∘ fun p => id p.name := rfl
      rw [hplain, ← List.map_map] at h
      exact List.Nodup.of_map _ h
    have hnodup := (nodup_localNames_iff (fun _ => rfl) hwritten).2 fun i p _ _ q hq _ hx => ?_
    · rwa [List.map_id] at hnodup
    · have hmem : q.name ∈ names := List.mem_map_of_mem hq
      have hname : q.name = placeholder names i := hx
      rw [hname] at hmem
      exact freeName_not_mem names _ hmem

/-- A function with wildcards between names of the form of placeholders. -/
def wildcardFunction : Function where
  name := "f"
  parameters := [⟨"_", "_", "Int"⟩, ⟨"x", "arg0", "Int"⟩, ⟨"_", "_", "Int"⟩, ⟨"y", "_arg2", "Int"⟩, ⟨"z", "arg2", "Int"⟩]
  returnType := ""
  modifiers := ["private"]
  isAsync := false
  isThrowing := false
  position := none

theorem wildcardFunction_distinct :
    ((wildcardFunction.parameters.filter (·.name != wildcard)).map fun p => plainName p.name).Nodup ∧
      localNames wildcardFunction = ["_arg0", "arg0", "__arg2", "_arg2", "arg2"] ∧
      ((localNames wildcardFunction).map plainName).Nodup := by
  have hreadable : ((wildcardFunction.parameters.filter (·.name != wildcard)).map fun p => plainName p.name).Nodup := by
    decide +kernel
  refine ⟨hreadable, by decide +kernel, (localNames_distinct_iff hreadable).2.2.2.2.2.2 ?_⟩
  have hfree : ∀ i < 5, ∀ q ∈ wildcardFunction.parameters, q.name ≠ wildcard →
      plainName q.name ≠ placeholder (wildcardFunction.parameters.map Parameter.name) i := by
    decide +kernel
  intro i p hp _ q hq hw
  exact hfree i (List.getElem?_eq_some_iff.1 hp).1 q hq hw

/-- A class with a function whose second parameter has the name of a placeholder, in backticks. -/
def backtickText : String :=
  "@Testable\nclass A \x7b private func f(_ _: Int, x \x60arg0\x60: Int) \x7b\x7d \x7d"

/-- Both parameters get the same local name, but for the backticks. -/
theorem backticks_hide_placeholder :
    ∃ ds f, parse backtickText = .ok ds ∧ f ∈ functionsAmong ds ∧
      ((f.parameters.filter (·.name != wildcard)).map fun p => plainName p.name).Nodup ∧
      localNames f = ["arg0", "\x60arg0\x60"] ∧ ¬((localNames f).map plainName).Nodup := by
  have hread : (parse backtickText).toOption.any (fun ds => (functionsAmong ds).any fun f =>
      decide ((f.parameters.filter (·.name != wildcard)).map fun p => plainName p.name).Nodup &&
        localNames f == ["arg0", "\x60arg0\x60"]) = true := by
    decide +kernel
  obtain ⟨ds, hds, hread⟩ := exists_ok hread
  obtain ⟨f, hf, hread⟩ := List.any_eq_true.1 hread
  rw [Bool.and_eq_true, decide_eq_true_eq, beq_iff_eq] at hread
  refine ⟨ds, f, hds, hf, hread.1, hread.2, ?_⟩
  rw [hread.2]
  decide +kernel

end TestHooks.Proxy
