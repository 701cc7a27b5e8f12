import Mathlib.Data.List.Nodup
import TestHooks.CommandLine
import TestHooks.Proofs.Fields
import TestHooks.Proofs.Strictness

/-!
# How commands begin

Both commands read the items of settings, then their input, then the settings, and stop at the first that is wrong
(`cases_of_withInput`). A command that ends well has gone past all of them (`reaches_of_success`). Strict mode is asked
for by an override of its own, which changes no other setting (`load_strict`).
-/

namespace TestHooks

/-! ### Overrides -/

namespace Value

theorem lookup_cons (key : String) (e : String × Value) (rest : List (String × Value)) :
    lookup key (e :: rest) = if e.1 = key then some e.2 else lookup key rest := by
  by_cases h : e.1 = key <;> simp [lookup, h]

theorem lookup_eq_none {key : String} {entries : List (String × Value)} (h : key ∉ entries.map Prod.fst) :
    lookup key entries = none := by
  rw [lookup, Option.map_eq_none_iff, List.find?_eq_none]
  exact fun x hx hkey => h (eq_of_beq hkey ▸ List.mem_map_of_mem hx)

theorem mem_keys_insert {key other : String} {value : Value} {entries : List (String × Value)} :
    other ∈ (insert key value entries).map Prod.fst ↔ other = key ∨ other ∈ entries.map Prod.fst := by
  induction entries with
  | nil => simp [insert]
  | cons e rest ih =>
    rw [insert]
    split_ifs with hk
    · simp [← eq_of_beq hk]
    · rw [List.map_cons, List.map_cons, List.mem_cons, List.mem_cons, ih, or_left_comm]

theorem nodup_insert (key : String) (value : Value) {entries : List (String × Value)}
    (h : (entries.map Prod.fst).Nodup) : ((insert key value entries).map Prod.fst).Nodup := by
  induction entries with
  | nil => exact List.nodup_singleton key
  | cons e rest ih =>
    obtain ⟨k, v⟩ := e
    rw [List.map_cons, List.nodup_cons] at h
    rw [insert]
    split_ifs with hk
    · exact List.nodup_cons.2 h
    · rw [List.map_cons, List.nodup_cons, mem_keys_insert, not_or]
      exact ⟨⟨fun hkey => hk (beq_iff_eq.2 hkey), h.1⟩, ih h.2⟩

/-- Among entries with different keys the one that is inserted last is the only one of its key. -/
theorem lookup_insertAll_of_nodup (key : String) (entries : List (String × Value)) {added : List (String × Value)}
    (h : (added.map Prod.fst).Nodup) :
    lookup key (insertAll entries added) = (lookup key added).or (lookup key entries) := by
  induction added generalizing entries with
  | nil => rfl
  | cons e rest ih =>
    rw [List.map_cons, List.nodup_cons] at h
    have hstep : insertAll entries (e :: rest) = insertAll (insert e.1 e.2 entries) rest := rfl
    rw [hstep, ih _ h.2, lookup_insert, lookup_cons]
    split_ifs with hkey
    · rw [lookup_eq_none (hkey ▸ h.1)]
      rfl
    · rfl

end Value

namespace Settings

open TestHooks.Value

theorem nodup_ofItems {items : List String} {overrides : List (String × Value)} (h : ofItems items = .ok overrides) :
    (overrides.map Prod.fst).Nodup := by
  have hadd (items : List String) {entries overrides : List (String × Value)} (hn : (entries.map Prod.fst).Nodup)
      (h : addItems entries items = .ok overrides) : (overrides.map Prod.fst).Nodup := by
    induction items generalizing entries with
    | nil => exact Except.ok.inj h ▸ hn
    | cons item items ih =>
      rw [addItems] at h
      split at h
      · exact ih (nodup_insert _ _ hn) h
      · cases h
  exact hadd items (by exact List.nodup_nil) h

/-- Strict mode changes nothing but itself, and is never in the way. -/
theorem load_strict {text : Option String} {items : List String} {overrides : List (String × Value)} {s : Settings}
    (hitems : ofItems items = .ok overrides) (h : load text overrides none = .ok (.ok s)) (strict : Bool) :
    load text overrides (if strict then some true else none) = .ok (.ok (if strict then s.strict else s)) := by
  cases strict with
  | false => exact h
  | true =>
    have hn := nodup_ofItems hitems
    cases hentries : readEntries text with
    | error fault =>
      rw [load, hentries] at h
      cases h
    | ok entries =>
      rw [load, hentries] at h ⊢
      refine congrArg Except.ok (check_strict (Except.ok.inj h) (fun name hname => ?_) ?_)
      · change lookup name (insertAll entries (insert "strict_mode" (.bool true) overrides)) =
          lookup name (insertAll entries overrides)
        rw [lookup_insertAll_of_nodup _ _ (nodup_insert _ _ hn), lookup_insertAll_of_nodup _ _ hn, lookup_insert,
          if_neg hname.symm]
      · change lookup "strict_mode" (insertAll entries (insert "strict_mode" (.bool true) overrides)) = _
        rw [lookup_insertAll_of_nodup _ _ (nodup_insert _ _ hn), lookup_insert, if_pos rfl]
        rfl

end Settings

namespace CommandLine

variable {path : FilePath} {inputs : Inputs} {overrides : List (String × Value)} {strict : Option Bool}
  {command : Settings → String → Outcome} {raw : String} {settings : Settings} {o : Outcome}

theorem withInput_of_load (htext : inputs.text = some raw)
    (hload : Settings.load inputs.settings overrides strict = .ok (.ok settings)) :
    withInput path inputs overrides strict command = .ok (command settings (Text.readLines raw)) := by
  rw [withInput, htext]
  dsimp only
  rw [hload]
  rfl

/-- A command stops without its input, then with settings that are wrong, or gets past both. -/
theorem cases_of_withInput (h : withInput path inputs overrides strict command = .ok o) :
    o = .failed 1 [inputNotFound path] ∨ (∃ complaints, o = .failed 1 [invalidSettings complaints]) ∨
      ∃ raw settings, inputs.text = some raw ∧ Settings.load inputs.settings overrides strict = .ok (.ok settings) ∧
        o = command settings (Text.readLines raw) := by
  cases htext : inputs.text with
  | none =>
    rw [withInput, htext] at h
    exact .inl (Except.ok.inj h).symm
  | some raw =>
    rcases hload : Settings.load inputs.settings overrides strict with fault | complaints | settings
    · rw [withInput, htext] at h
      dsimp only at h
      rw [hload] at h
      cases h
    · rw [withInput, htext] at h
      dsimp only at h
      rw [hload] at h
      exact .inr (.inl ⟨complaints, (Except.ok.inj h).symm⟩)
    · rw [withInput_of_load htext hload] at h
      exact .inr (.inr ⟨raw, settings, rfl, rfl, (Except.ok.inj h).symm⟩)

theorem reaches_of_success (h : withInput path inputs overrides strict command = .ok o) (hexit : o.exitCode = 0) :
    ∃ raw settings, inputs.text = some raw ∧ Settings.load inputs.settings overrides strict = .ok (.ok settings) ∧
      o = command settings (Text.readLines raw) := by
  obtain rfl | ⟨complaints, rfl⟩ | hreached := cases_of_withInput h
  · cases hexit
  · cases hexit
  · exact hreached

end CommandLine

end TestHooks
