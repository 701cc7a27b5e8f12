import TestHooks.Proofs.Documents
import TestHooks.Proofs.Fields
import TestHooks.Proofs.Numerals

/-!
# Guessed values of settings

The value of an item `key=value` is guessed from its text before anyone asks what setting the key stands for. For most
texts this makes no difference: the setting is the same as with the text itself, or both are wrong. `Harmless` tells,
kind of setting by kind, for which texts it does (`guess_harmless_iff`).
-/

namespace TestHooks.Settings

open TestHooks.Value TestHooks.Text

variable {t : String}

/-! ### Guesses -/

/-- The text is a truth value, in letters of either case. -/
def SaysTruth (t : String) : Prop := lowerAscii t = "true" ∨ lowerAscii t = "false"

/-- What a text may be taken for. -/
inductive Guessed (t : String) : Value → Prop
  | yes (h : lowerAscii t = "true") : Guessed t (.bool true)
  | no (h : lowerAscii t = "false") : Guessed t (.bool false)
  | list (plain : ¬SaysTruth t) (comma : ',' ∈ t.toList) : Guessed t (.list ((words t).map .string))
  | number (n : Int) (h : wholeNumber? t.toList = some n) : Guessed t (.int n)
  | text (plain : ¬SaysTruth t) (whole : ',' ∉ t.toList) (other : wholeNumber? t.toList = none) : Guessed t (.string t)

theorem guessed (t : String) : Guessed t (guess t) := by
  rw [guess]
  split_ifs with hyes hno hcomma
  · exact .yes hyes
  · exact .no hno
  · exact .list (not_or.2 ⟨hyes, hno⟩) (List.contains_iff_mem.1 hcomma)
  · cases hn : wholeNumber? t.toList with
    | some n => exact .number n hn
    | none => exact .text (not_or.2 ⟨hyes, hno⟩) (fun h => hcomma (List.contains_iff_mem.2 h)) hn

theorem number_of_comma (h : ',' ∈ t.toList) : wholeNumber? t.toList = none := by
  by_contra hsome
  obtain ⟨n, hn⟩ := Option.ne_none_iff_exists'.1 hsome
  rcases wholeNumber_chars hn ',' h with hc | hc <;> exact absurd hc (by decide)

/-- Both truth values are written with the letter e. -/
theorem letter_of_saysTruth (h : SaysTruth t) : ∃ c ∈ t.toList, c.toLower = 'e' := by
  have he : 'e' ∈ t.toList.map Char.toLower := by
    rw [← String.toList_ofList (l := t.toList.map Char.toLower)]
    rcases h with h | h
    · rw [show String.ofList _ = "true" from h]
      decide
    · rw [show String.ofList _ = "false" from h]
      decide
  exact List.mem_map.1 he

theorem letter_not_of_number {c : Char} (h : isDecimalDigit c = true ∨ c ∈ ['_', '-', '+', '.']) : c.toLower ≠ 'e' := by
  rw [toLower_of_numberChar h]
  rintro rfl
  exact absurd h (by decide)

theorem number_of_saysTruth (h : SaysTruth t) : wholeNumber? t.toList = none := by
  by_contra hsome
  obtain ⟨n, hn⟩ := Option.ne_none_iff_exists'.1 hsome
  obtain ⟨c, hc, he⟩ := letter_of_saysTruth h
  exact letter_not_of_number ((wholeNumber_chars hn c hc).imp_right (List.mem_append_left ['.'])) he

theorem not_number {n : Int} (h : wholeNumber? t.toList = none) : wholeNumber? t.toList ≠ some n := by
  rw [h]
  exact (Option.some_ne_none n).symm

theorem ne_of_number {n : Int} (h : wholeNumber? t.toList = some n) {u : String} (hu : wholeNumber? u.toList = none) :
    t ≠ u := by
  rintro rfl
  rw [hu] at h
  cases h

/-! ### Readers of guesses -/

/-- The texts whose guess is read like the text itself. -/
def FieldKind.Harmless (t : String) : FieldKind → Prop
  | choice => True
  | words => ¬SaysTruth t ∧ wholeNumber? t.toList = none
  | truth => ∀ n, wholeNumber? t.toList = some n → n = 0 ∨ n = 1 → t = "0" ∨ t = "1"
  | filled => ¬SaysTruth t ∧ ',' ∉ t.toList ∧ wholeNumber? t.toList = none
  | width => lowerAscii t ≠ "true" ∧ ∀ n, wholeNumber? t.toList = some n → 0 < n →
      (∀ c ∈ t.toList, c.toNat < 128) ∧ t.toList.length ≤ maxNumberLength

variable {v : Value}

/-- The names of the ways to match are guessed to be texts, and nothing else is taken for one. -/
theorem choice_alike (t : String) : Checked.Alike (checkMatching (guess t)) (checkMatching (.string t)) := by
  by_cases hv : guess t = .string t
  · rw [hv]
    exact .refl _
  · have hexact : t ≠ "exact" := fun h => hv (h ▸ rfl)
    have hsubstring : t ≠ "substring" := fun h => hv (h ▸ rfl)
    have h := guessed t
    apply Checked.alike_of_fail
    · generalize guess t = v at h hv
      cases h with
      | text => exact absurd rfl hv
      | _ => exact Checked.fail_ne_ok _
    · intro z
      unfold checkMatching
      split
      · exact fun _ => hexact (Value.string.inj ‹_›)
      · exact fun _ => hsubstring (Value.string.inj ‹_›)
      · exact Checked.fail_ne_ok _ z

theorem words_alike_iff (h : Guessed t v) :
    Checked.Alike (checkModifiers v) (checkModifiers (.string t)) ↔ FieldKind.words.Harmless t := by
  rw [show checkModifiers (.string t) = .ok (words t) from rfl, Checked.alike_ok_iff]
  cases h with
  | yes h => exact iff_of_false nofun fun hh => hh.1 (.inl h)
  | no h => exact iff_of_false nofun fun hh => hh.1 (.inr h)
  | list plain comma => exact iff_of_true (Document.checkList_ofStrings .values _) ⟨plain, number_of_comma comma⟩
  | number n h =>
    exact iff_of_false nofun fun ⟨_, hnone⟩ => not_number hnone h
  | text plain whole other => exact iff_of_true rfl ⟨plain, other⟩

theorem filled_alike_iff (ht : trim t = t) (h : Guessed t v) :
    Checked.Alike (checkFilled v) (checkFilled (.string t)) ↔ FieldKind.filled.Harmless t := by
  have htext : checkFilled (.string t) =
      if (trim t).isEmpty then .fail (.rejected "Value must not be empty") else .ok (trim t) := rfl
  rw [ht] at htext
  have hfull (hne : t ≠ "") (hv : ∀ z, checkFilled v ≠ .ok z) :
      ¬Checked.Alike (checkFilled v) (checkFilled (.string t)) := by
    rw [htext, if_neg (by simpa using hne), Checked.alike_ok_iff]
    exact hv t
  cases h with
  | yes h => exact iff_of_false (hfull (by rintro rfl; exact absurd h (by decide)) nofun) fun hh => hh.1 (.inl h)
  | no h => exact iff_of_false (hfull (by rintro rfl; exact absurd h (by decide)) nofun) fun hh => hh.1 (.inr h)
  | list plain comma =>
    exact iff_of_false (hfull (by rintro rfl; exact absurd comma (by decide)) nofun) fun hh => hh.2.1 comma
  | number n h =>
    exact iff_of_false (hfull (ne_of_number h (by decide)) nofun) fun ⟨_, _, hnone⟩ => not_number hnone h
  | text plain whole other => exact iff_of_true (.refl _) ⟨plain, whole, other⟩

theorem checkBool_int {n : Int} {z : Bool} : checkBool (.int n) = .ok z ↔ n = 0 ∧ z = false ∨ n = 1 ∧ z = true := by
  rw [checkBool, checkTruth]
  split_ifs with hfits hzero hone
  · simp [hzero, eq_comm]
  · simp [hone, eq_comm]
  · simp [hzero, hone]
  · refine iff_of_false (Checked.fail_ne_ok _ _) ?_
    rintro (⟨rfl, -⟩ | ⟨rfl, -⟩) <;> exact hfits (by decide)

/-- As a truth value, the text of a number is a zero or a one. -/
theorem checkBool_of_number {n : Int} (h : wholeNumber? t.toList = some n) {z : Bool} :
    checkBool (.string t) = .ok z ↔ t = "0" ∧ z = false ∨ t = "1" ∧ z = true := by
  have hwords : ∀ u ∈ falseWords ++ trueWords, wholeNumber? u.toList = none ∨ u = "0" ∨ u = "1" := by decide
  have hdigit (hu : t ∈ falseWords ++ trueWords) : t = "0" ∨ t = "1" :=
    (hwords t hu).resolve_left fun hnone => not_number hnone h
  rw [checkBool, lowerAscii_of_number h]
  split_ifs with hfalse htrue
  · obtain rfl | rfl := hdigit (List.mem_append_left _ (List.contains_iff_mem.1 hfalse))
    · simp [eq_comm]
    · exact absurd hfalse (by decide)
  · obtain rfl | rfl := hdigit (List.mem_append_right _ (List.contains_iff_mem.1 htrue))
    · exact absurd htrue (by decide)
    · simp [eq_comm]
  · refine iff_of_false (Checked.fail_ne_ok _ _) ?_
    rintro (⟨rfl, -⟩ | ⟨rfl, -⟩)
    · exact hfalse (by decide)
    · exact htrue (by decide)

/-- No word for a truth value has a comma. -/
theorem checkBool_of_comma (h : ',' ∈ t.toList) (z : Bool) : checkBool (.string t) ≠ .ok z := by
  have hwords : ∀ u ∈ falseWords ++ trueWords, ',' ∉ u.toList := by decide
  have hcomma : ',' ∈ (lowerAscii t).toList := by
    rw [lowerAscii, String.toList_ofList]
    exact List.mem_map.2 ⟨',', h, rfl⟩
  rw [checkBool]
  split_ifs with hfalse htrue
  · exact absurd hcomma (hwords _ (List.mem_append_left _ (List.contains_iff_mem.1 hfalse)))
  · exact absurd hcomma (hwords _ (List.mem_append_right _ (List.contains_iff_mem.1 htrue)))
  · exact Checked.fail_ne_ok _ z

theorem truth_alike_iff (h : Guessed t v) :
    Checked.Alike (checkBool v) (checkBool (.string t)) ↔ FieldKind.truth.Harmless t := by
  cases h with
  | yes h =>
    rw [show checkBool (.string t) = .ok true by rw [checkBool, h]; rfl]
    exact iff_of_true (.refl _) fun n hn => absurd hn (not_number (number_of_saysTruth (.inl h)))
  | no h =>
    rw [show checkBool (.string t) = .ok false by rw [checkBool, h]; rfl]
    exact iff_of_true (.refl _) fun n hn => absurd hn (not_number (number_of_saysTruth (.inr h)))
  | list plain comma =>
    exact iff_of_true (Checked.alike_of_fail (Checked.fail_ne_ok _) (checkBool_of_comma comma))
      fun n hn => absurd hn (not_number (number_of_comma comma))
  | number n h =>
    -- The digits 0 and 1 are guessed to be the numbers that they are.
    have hzero : t = "0" → n = 0 := by
      rintro rfl
      exact (Option.some.inj h).symm
    have hone : t = "1" → n = 1 := by
      rintro rfl
      exact (Option.some.inj h).symm
    simp only [Checked.Alike, checkBool_int, checkBool_of_number h, FieldKind.Harmless, h, Option.some.injEq, forall_eq']
    constructor
    · rintro ha (rfl | rfl)
      · exact ((ha false).1 (.inl ⟨rfl, rfl⟩)).imp And.left And.left
      · exact ((ha true).1 (.inr ⟨rfl, rfl⟩)).imp And.left And.left
    · intro hh z
      have hzero' : n = 0 ↔ t = "0" :=
        ⟨fun hn => (hh (.inl hn)).resolve_right fun ht => by have := hone ht; omega, hzero⟩
      have hone' : n = 1 ↔ t = "1" :=
        ⟨fun hn => (hh (.inr hn)).resolve_left fun ht => by have := hzero ht; omega, hone⟩
      rw [hzero', hone']
  | text plain whole other => exact iff_of_true (.refl _) fun n hn => absurd hn (not_number other)

theorem checkIndent_eq_ok_iff {z : { n : Nat // 0 < n }} : checkIndent v = .ok z ↔ checkInt v = .ok (z.1 : Int) := by
  rw [checkIndent, Checked.next_eq_ok_iff]
  constructor
  · rintro ⟨n, hn, hz⟩
    split_ifs at hz with hpos
    · rw [hn, ← Checked.ok_inj.1 hz, Checked.ok_inj]
      exact (Int.toNat_of_nonneg (by omega)).symm
    · cases hz
  · intro h
    have hpos := z.2
    refine ⟨z.1, h, ?_⟩
    rw [dif_pos (by omega), Checked.ok_inj]
    rfl

theorem checkIntText_of_saysTruth (ht : trim t = t) (h : SaysTruth t) (n : Int) : checkIntText t ≠ .ok n := by
  obtain ⟨c, hc, he⟩ := letter_of_saysTruth h
  exact fun hn => letter_not_of_number (checkIntText_chars ht hn c hc) he

theorem checkIntText_of_comma (ht : trim t = t) (h : ',' ∈ t.toList) (n : Int) : checkIntText t ≠ .ok n :=
  fun hn => absurd (checkIntText_chars ht hn ',' h) (by decide)

theorem width_alike_iff (ht : trim t = t) (h : Guessed t v) :
    Checked.Alike (checkIndent v) (checkIndent (.string t)) ↔ FieldKind.width.Harmless t := by
  simp only [Checked.Alike, checkIndent_eq_ok_iff, Subtype.forall]
  change (∀ m : Nat, 0 < m → (checkInt v = .ok (m : Int) ↔ checkIntText t = .ok (m : Int))) ↔ _
  cases h with
  | yes h =>
    refine iff_of_false (fun ha => ?_) fun hh => hh.1 h
    exact checkIntText_of_saysTruth ht (.inl h) 1 ((ha 1 Nat.one_pos).1 rfl)
  | no h =>
    refine iff_of_true (fun m hm => iff_of_false (fun hz => ?_) (checkIntText_of_saysTruth ht (.inr h) m)) ⟨?_, ?_⟩
    · have := Checked.ok_inj.1 hz
      simp only [Bool.false_eq_true, if_false] at this
      omega
    · rw [h]
      decide
    · exact fun n hn => absurd hn (not_number (number_of_saysTruth (.inr h)))
  | list plain comma =>
    exact iff_of_true (fun m _ => iff_of_false (Checked.fail_ne_ok _ _) (checkIntText_of_comma ht comma m))
      ⟨fun h => plain (.inl h), fun n hn => absurd hn (not_number (number_of_comma comma))⟩
  | number n h =>
    simp only [show checkInt (.int n) = .ok n from rfl, Checked.ok_inj, checkIntText_of_number ht h,
      FieldKind.Harmless, h, Option.some.injEq, forall_eq']
    constructor
    · refine fun ha => ⟨fun htrue => not_number (number_of_saysTruth (.inl htrue)) h, fun hn => ?_⟩
      exact ((ha n.toNat (by omega)).1 (by omega)).2
    · rintro ⟨-, hh⟩ m hm
      exact ⟨fun hn => ⟨hn.symm, hh (by omega)⟩, fun hn => hn.1.symm⟩
  | text plain whole other =>
    exact iff_of_true (fun _ _ => Iff.rfl) ⟨fun h => plain (.inl h), fun n hn => absurd hn (not_number other)⟩

/-! ### Items -/

/-- The name of a setting has no equals sign and no blanks around it. -/
theorem item_of_field {f : Field} (hf : f ∈ fields) (s : String) :
    item? (f.name ++ "=" ++ s) = some (f.name, guess (trim s)) := by
  have hname : ∀ f ∈ fields, (∀ c ∈ f.name.toList, (c != '=') = true) ∧ trim f.name = f.name := by decide
  obtain ⟨hequals, htrim⟩ := hname f hf
  have htext : (f.name ++ "=" ++ s).toList = f.name.toList ++ '=' :: s.toList := by simp
  have htake : (f.name.toList ++ '=' :: s.toList).takeWhile (· != '=') = f.name.toList := by
    rw [List.takeWhile_append_of_pos hequals]
    simp
  rw [item?, htext, htake, List.drop_left]
  dsimp only
  rw [String.ofList_toList, String.ofList_toList, htrim]

theorem ofItems_field {f : Field} (hf : f ∈ fields) (s : String) :
    ofItems [f.name ++ "=" ++ s] = .ok [(f.name, guess (trim s))] := by
  rw [ofItems, addItems, item_of_field hf]
  rfl

end TestHooks.Settings
