import TestHooks.Settings.OfValues

/-!
# Fields of settings

The check of a table of values reads each setting from the entry of its name. So a table of one entry changes at most
one setting, and what the check makes of it is what the reader of this setting makes of the value (`check_field`).
Other names change nothing (`check_unnamed`).
-/

namespace TestHooks

namespace Checked

variable {α β : Type}

/-- Both checks accept the same value, or neither accepts any. -/
def Alike (x y : Checked α) : Prop := ∀ z, x = .ok z ↔ y = .ok z

theorem Alike.refl (x : Checked α) : Alike x x := fun _ => Iff.rfl

theorem alike_of_fail {x y : Checked α} (hx : ∀ z, x ≠ .ok z) (hy : ∀ z, y ≠ .ok z) : Alike x y :=
  fun z => ⟨fun h => absurd h (hx z), fun h => absurd h (hy z)⟩

theorem alike_ok_iff {x : Checked α} {y : α} : Alike x (ok y) ↔ x = ok y :=
  ⟨fun h => (h y).2 rfl, fun h => h ▸ .refl _⟩

@[simp] theorem ok_inj {x y : α} : (ok x : Checked α) = ok y ↔ x = y :=
  ⟨Except.ok.inj, fun h => h ▸ rfl⟩

@[simp] theorem fail_ne_ok (issue : Issue) (z : α) : (fail issue : Checked α) ≠ .ok z := nofun

@[simp] theorem under_eq_ok_iff {step : PathStep} {x : Checked α} {z : α} : x.under step = .ok z ↔ x = .ok z := by
  cases x with
  | ok y => rfl
  | error complaints => exact ⟨nofun, nofun⟩

theorem next_eq_ok_iff {x : Checked α} {f : α → Checked β} {z : β} :
    x.next f = .ok z ↔ ∃ y, x = .ok y ∧ f y = .ok z := by
  cases x with
  | ok y =>
    constructor
    · exact fun h => ⟨y, rfl, h⟩
    · rintro ⟨_, h, hz⟩
      rwa [← ok_inj.1 h] at hz
  | error complaints => exact ⟨nofun, nofun⟩

theorem map_eq_ok_iff {f : α → β} {x : Checked α} {z : β} : x.map f = .ok z ↔ ∃ y, x = .ok y ∧ f y = z := by
  cases x with
  | ok y =>
    constructor
    · intro h
      exact ⟨y, rfl, Except.ok.inj h⟩
    · rintro ⟨_, h, rfl⟩
      rw [Except.ok.inj h]
      rfl
  | error complaints => exact ⟨nofun, nofun⟩

theorem map_eq_map_iff {f : α → β} (hf : f.Injective) {x : Checked α} {y : α} : x.map f = .ok (f y) ↔ x = .ok y := by
  rw [map_eq_ok_iff]
  exact ⟨fun ⟨_, hx, hy⟩ => hf hy ▸ hx, fun h => ⟨y, h, rfl⟩⟩

/-- All of several checks succeed if the last one does and those before it do. -/
theorem seq_eq_ok {f : Checked (α → β)} {x : Checked α} {z : β} (h : f <*> x = .ok z) :
    ∃ g y, f = .ok g ∧ x = .ok y ∧ g y = z := by
  change both f x = .ok z at h
  cases f with
  | ok g =>
    cases x with
    | ok y => exact ⟨g, y, rfl, rfl, ok_inj.1 h⟩
    | error complaints => cases h
  | error complaints => cases x <;> cases h

/-- Results are compared before or after they are put in their place. -/
theorem alike_map_iff {f : α → β} (hf : f.Injective) {x y : Checked α} :
    Alike (x.map f) (y.map f) ↔ Alike x y := by
  constructor
  · intro h z
    rw [← map_eq_map_iff hf, h, map_eq_map_iff hf]
  · intro h z
    simp only [map_eq_ok_iff, h _]

theorem optionalField_single (name other : String) (v : Value) (read : Value → Checked α) (absent : α) :
    optionalField [(name, v)] other read absent = if name = other then (read v).under (.field other) else .ok absent := by
  by_cases h : name = other <;> simp [optionalField, Value.lookup, h]

theorem alike_under_iff {step : PathStep} {x y : Checked α} : Alike (x.under step) (y.under step) ↔ Alike x y := by
  simp only [Alike, under_eq_ok_iff]

end Checked

namespace Settings

open TestHooks.Value

/-- What the value of a setting is read for. -/
inductive FieldKind
  | choice
  | words
  | truth
  | filled
  | width
  deriving DecidableEq, Repr

def FieldKind.Result : FieldKind → Type
  | choice => Matching
  | words => List String
  | truth => Bool
  | filled => String
  | width => { n : Nat // 0 < n }

def FieldKind.read : (kind : FieldKind) → Value → Checked kind.Result
  | choice => checkMatching
  | words => checkModifiers
  | truth => checkBool
  | filled => checkFilled
  | width => checkIndent

/-- A setting by its name: it can be read off all settings, and be replaced among them. -/
structure Field where
  name : String
  kind : FieldKind
  get : Settings → kind.Result
  set : Settings → kind.Result → Settings
  get_set (s : Settings) (x : kind.Result) : get (set s x) = x

theorem Field.set_injective (f : Field) (s : Settings) : (f.set s).Injective :=
  Function.LeftInverse.injective (f.get_set s)

/-- All settings, in the order of their checks. -/
def fields : List Field :=
  [⟨"modifier_matching", .choice, matching, fun s x => { s with matching := x }, fun _ _ => rfl⟩,
    ⟨"qualifying_modifiers", .words, qualifyingModifiers, fun s x => { s with qualifyingModifiers := x }, fun _ _ => rfl⟩,
    ⟨"static_modifiers", .words, staticModifiers, fun s x => { s with staticModifiers := x }, fun _ _ => rfl⟩,
    ⟨"wildcard_call_labels", .truth, wildcardCallLabels, fun s x => { s with wildcardCallLabels := x }, fun _ _ => rfl⟩,
    ⟨"infer_literal_types", .truth, inferLiteralTypes, fun s x => { s with inferLiteralTypes := x }, fun _ _ => rfl⟩,
    ⟨"placeholder_type", .filled, placeholderType, fun s x => { s with placeholderType := x }, fun _ _ => rfl⟩,
    ⟨"build_condition", .filled, buildCondition, fun s x => { s with buildCondition := x }, fun _ _ => rfl⟩,
    ⟨"indent_width", .width, fun s => ⟨s.indentWidth, s.indentWidth_pos⟩,
      fun s x => { s with indentWidth := x.1, indentWidth_pos := x.2 }, fun _ _ => rfl⟩,
    ⟨"strict_mode", .truth, strictMode, fun s x => { s with strictMode := x }, fun _ _ => rfl⟩]

/-- An entry with the name of a setting is read for this setting. -/
theorem check_field {f : Field} (hf : f ∈ fields) (v : Value) :
    check [(f.name, v)] = ((f.kind.read v).under (.field f.name)).map (f.set {}) := by
  simp only [fields, List.mem_cons, List.not_mem_nil, or_false] at hf
  -- For each setting, every other field is absent, and so the check passes or fails with its reader.
  cases hread : f.kind.read v <;>
    rcases hf with rfl | rfl | rfl | rfl | rfl | rfl | rfl | rfl | rfl <;>
    simp only [FieldKind.read, FieldKind.Result] at hread <;>
    simp only [check, Checked.optionalField_single, hread, String.reduceEq, if_true, if_false] <;> rfl

/-- Entries whose names are no settings are passed over. -/
theorem check_unnamed {entries : List (String × Value)} (h : ∀ f ∈ fields, lookup f.name entries = none) :
    check entries = .ok {} := by
  simp only [fields, List.forall_mem_cons] at h
  obtain ⟨h₁, h₂, h₃, h₄, h₅, h₆, h₇, h₈, h₉, -⟩ := h
  simp only [check, Checked.optionalField, h₁, h₂, h₃, h₄, h₅, h₆, h₇, h₈, h₉]
  rfl

/-- Strict mode is a setting of its own: the entries that ask for it lead to the same settings otherwise. -/
theorem check_strict {entries others : List (String × Value)} {s : Settings} (h : check entries = .ok s)
    (hsame : ∀ name, name ≠ "strict_mode" → lookup name others = lookup name entries)
    (hstrict : lookup "strict_mode" others = some (.bool true)) : check others = .ok { s with strictMode := true } := by
  have hfield {α : Type} {name : String} {read : Value → Checked α} {absent x : α} (hname : name ≠ "strict_mode")
      (h : Checked.optionalField entries name read absent = .ok x) :
      Checked.optionalField others name read absent = .ok x := by
    rw [Checked.optionalField, hsame name hname]
    exact h
  obtain ⟨_, _, make₈, -, rfl⟩ := Checked.seq_eq_ok h
  obtain ⟨_, _, make₇, h₈, rfl⟩ := Checked.seq_eq_ok make₈
  obtain ⟨_, _, make₆, h₇, rfl⟩ := Checked.seq_eq_ok make₇
  obtain ⟨_, _, make₅, h₆, rfl⟩ := Checked.seq_eq_ok make₆
  obtain ⟨_, _, make₄, h₅, rfl⟩ := Checked.seq_eq_ok make₅
  obtain ⟨_, _, make₃, h₄, rfl⟩ := Checked.seq_eq_ok make₄
  obtain ⟨_, _, make₂, h₃, rfl⟩ := Checked.seq_eq_ok make₃
  obtain ⟨_, _, make₁, h₂, rfl⟩ := Checked.seq_eq_ok make₂
  obtain ⟨_, _, make₀, h₁, rfl⟩ := Checked.seq_eq_ok make₁
  obtain rfl := Checked.ok_inj.1 make₀
  have hchecked : Checked.optionalField others "strict_mode" checkBool false = .ok true := by
    rw [Checked.optionalField, hstrict]
    rfl
  simp only [check, hfield (by decide) h₁, hfield (by decide) h₂, hfield (by decide) h₃, hfield (by decide) h₄,
    hfield (by decide) h₅, hfield (by decide) h₆, hfield (by decide) h₇, hfield (by decide) h₈, hchecked]
  rfl

end Settings

end TestHooks
