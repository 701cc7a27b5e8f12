import Mathlib.Data.List.DropRight
import TestHooks.Proofs.Literals
import TestHooks.Settings.KeyValue

/-!
# Texts of whole numbers

There are two readers of whole numbers: `Settings.wholeNumber?` takes the digits of all scripts, and
`Value.checkIntText` takes ASCII digits and may be followed by a point and zeros. On a text without blanks around it
both read the same number, if it is of ASCII characters and not too long (`checkIntText_of_number`).
-/

namespace TestHooks

namespace Text

variable {digit? : Char → Option Nat} {c : Char} {cs : List Char}

/-- Nothing but digits and underscores stands in a number. -/
theorem digit_of_groupedDigitsFrom {n m : Nat} (h : groupedDigitsFrom digit? n cs = some m) :
    ∀ c ∈ cs, (digit? c).isSome = true ∨ c = '_' := by
  fun_induction groupedDigitsFrom digit? n cs with
  | case1 n => nofun
  | case2 n c cs ih =>
    obtain ⟨d, hd, hrest⟩ := Option.bind_eq_some_iff.1 h
    intro e he
    simp only [List.mem_cons] at he
    rcases he with rfl | rfl | he
    · exact .inr rfl
    · exact .inl (by rw [hd]; rfl)
    · exact ih d hrest e he
  | case3 n c cs _ ih =>
    obtain ⟨d, hd, hrest⟩ := Option.bind_eq_some_iff.1 h
    intro e he
    rcases List.mem_cons.1 he with rfl | he
    · exact .inl (by rw [hd]; rfl)
    · exact ih d hrest e he

theorem digit_of_groupedDigits {m : Nat} (h : groupedDigits? digit? cs = some m) :
    ∀ c ∈ cs, (digit? c).isSome = true ∨ c = '_' := by
  cases cs with
  | nil => nofun
  | cons c cs =>
    obtain ⟨d, hd, hrest⟩ := Option.bind_eq_some_iff.1 h
    intro e he
    rcases List.mem_cons.1 he with rfl | he
    · exact .inl (by rw [hd]; rfl)
    · exact digit_of_groupedDigitsFrom hrest e he

/-- Nothing but digits, underscores and a sign stands in a number with a sign. -/
theorem digit_of_signedDigits {n : Int} (h : signedDigits? digit? cs = some n) :
    ∀ c ∈ cs, (digit? c).isSome = true ∨ c ∈ ['_', '-', '+'] := by
  have hplain {cs : List Char} (h : groupedDigits? digit? cs ≠ none) :
      ∀ c ∈ cs, (digit? c).isSome = true ∨ c ∈ ['_', '-', '+'] := by
    obtain ⟨m, hm⟩ := Option.ne_none_iff_exists'.1 h
    intro c hc
    exact (digit_of_groupedDigits hm c hc).imp_right fun h => by simp [h]
  unfold signedDigits? at h
  split at h
  · exact List.forall_mem_cons.2 ⟨.inr (by decide), hplain fun hg => by simp [hg] at h⟩
  · exact List.forall_mem_cons.2 ⟨.inr (by decide), hplain fun hg => by simp [hg] at h⟩
  · exact hplain fun hg => by simp [hg] at h

theorem groupedDigitsFrom_congr {read : Char → Option Nat} {n : Nat} (h : ∀ c ∈ cs, digit? c = read c) :
    groupedDigitsFrom digit? n cs = groupedDigitsFrom read n cs := by
  fun_induction groupedDigitsFrom digit? n cs with
  | case1 n => rfl
  | case2 n c cs ih =>
    rw [groupedDigitsFrom, ← h c (by simp)]
    exact Option.bind_congr fun d _ => ih d fun e he => h e (by simp [he])
  | case3 n c cs hne ih =>
    rw [groupedDigitsFrom, ← h c (by simp)]
    · exact Option.bind_congr fun d _ => ih d fun e he => h e (by simp [he])
    · exact hne

/-- Two readers of digits that agree on a text read the same number in it. -/
theorem signedDigits_congr {read : Char → Option Nat} (h : ∀ c ∈ cs, digit? c = read c) :
    signedDigits? digit? cs = signedDigits? read cs := by
  have hplain {cs : List Char} (h : ∀ c ∈ cs, digit? c = read c) :
      groupedDigits? digit? cs = groupedDigits? read cs := by
    cases cs with
    | nil => rfl
    | cons c cs =>
      rw [groupedDigits?, groupedDigits?, h c (by simp)]
      exact Option.bind_congr fun d _ => groupedDigitsFrom_congr fun e he => h e (by simp [he])
  fun_cases signedDigits? digit? cs with
  | case1 cs => rw [signedDigits?, hplain fun c hc => h c (by simp [hc])]
  | case2 cs => rw [signedDigits?, hplain fun c hc => h c (by simp [hc])]
  | case3 cs h₁ h₂ =>
    rw [signedDigits?.eq_3, hplain h]
    · exact h₁
    · exact h₂

theorem digitValue?_of_ascii (h : c.toNat < 128) : digitValue? c = asciiDigit? c := by
  have hfind : ∀ n < 128, (digitZeros.find? fun first => first ≤ n && n < first + 10) =
      if 48 ≤ n ∧ n ≤ 57 then some 48 else none := by decide
  have hdigit : c.isDigit = true ↔ 48 ≤ c.toNat ∧ c.toNat ≤ 57 := by
    simp only [Char.isDigit, Bool.and_eq_true, decide_eq_true_eq, ge_iff_le, UInt32.le_iff_toNat_le]
    exact Iff.rfl
  rw [digitValue?, hfind _ h, asciiDigit?]
  by_cases hc : 48 ≤ c.toNat ∧ c.toNat ≤ 57
  · rw [if_pos hc, if_pos (hdigit.2 hc)]
    rfl
  · rw [if_neg hc, if_neg (fun hd => hc (hdigit.1 hd))]
    rfl

theorem ascii_of_asciiDigit (h : (asciiDigit? c).isSome = true) : c.toNat < 128 := by
  rw [asciiDigit?] at h
  split at h
  · rename_i hdigit
    simp only [Char.isDigit, Bool.and_eq_true, decide_eq_true_eq] at hdigit
    exact Nat.lt_of_le_of_lt (UInt32.le_iff_toNat_le.1 hdigit.2) (by decide)
  · cases h

theorem decimal_of_asciiDigit (h : (asciiDigit? c).isSome = true) : isDecimalDigit c = true := by
  rwa [isDecimalDigit, digitValue?_of_ascii (ascii_of_asciiDigit h)]

/-- No digit has a lower case of its own. -/
theorem toLower_of_digit (h : isDecimalDigit c = true) : c.toLower = c := by
  refine dif_neg ?_
  rintro ⟨hlow, hhigh⟩
  have hlow : 65 ≤ c.toNat := UInt32.le_iff_toNat_le.1 hlow
  have hhigh : c.toNat ≤ 90 := UInt32.le_iff_toNat_le.1 hhigh
  have hascii : asciiDigit? c = none := by
    rw [asciiDigit?, if_neg]
    simp only [Char.isDigit, Bool.and_eq_true, decide_eq_true_eq, not_and]
    intro _ hnine
    have : c.toNat ≤ 57 := UInt32.le_iff_toNat_le.1 hnine
    omega
  rw [isDecimalDigit, digitValue?_of_ascii (by omega), hascii] at h
  cases h

/-- No character to be trimmed is left at either end. -/
theorem ends_of_trimWhile (p : Char → Bool) (cs : List Char) :
    (trimWhile p cs).head?.any p = false ∧ (trimWhile p cs).getLast?.any p = false := by
  have hprefix : trimWhile p cs <+: cs.dropWhile p := List.rdropWhile_prefix p _
  have hlast := List.rdropWhile_last_not p (cs.dropWhile p)
  rw [show (cs.dropWhile p).rdropWhile p = trimWhile p cs from rfl] at hlast
  cases htrim : trimWhile p cs with
  | nil => exact ⟨rfl, rfl⟩
  | cons c ds =>
    constructor
    · obtain ⟨es, hes⟩ := hprefix
      have hhead := List.head?_dropWhile_not p cs
      rw [← hes, htrim, List.cons_append, List.head?_cons] at hhead
      simpa using hhead
    · rw [List.getLast?_eq_some_getLast (List.cons_ne_nil c ds), Option.any_some]
      simpa [htrim] using hlast

/-- A text without blanks at its ends stays the same without some of them. -/
theorem trimWhile_of_trim {p : Char → Bool} (hp : ∀ c, p c = true → isBlank c = true) (s : String) :
    trimWhile p (trim s).toList = (trim s).toList := by
  obtain ⟨hhead, hlast⟩ := ends_of_trimWhile isBlank s.toList
  have hany {c : Option Char} (h : c.any isBlank = false) : c.any p = false := by
    cases c with
    | none => rfl
    | some c => exact Bool.eq_false_iff.2 fun hc => by simp [hp c hc] at h
  rw [trim, String.toList_ofList]
  exact Swift.trimWhile_eq_self (hany hhead) (hany hlast)

theorem trim_trim (s : String) : trim (trim s) = trim s := by
  conv_lhs => rw [trim, trimWhile_of_trim (fun _ => id), String.ofList_toList]

theorem utf8ByteSize_of_ascii (h : ∀ c ∈ cs, c.toNat < 128) : (String.ofList cs).utf8ByteSize = cs.length := by
  induction cs with
  | nil => rfl
  | cons c cs ih =>
    have hc : c.utf8Size = 1 := by
      have : c.val ≤ 0x7f := UInt32.le_iff_toNat_le.2 (Nat.le_of_lt_succ (h c List.mem_cons_self))
      simp [Char.utf8Size, this]
    rw [String.ofList_cons, String.utf8ByteSize_append, String.utf8ByteSize_singleton, hc,
      ih fun d hd => h d (List.mem_cons_of_mem c hd), List.length_cons, Nat.add_comm]

end Text

namespace Settings

open TestHooks.Value TestHooks.Text

variable {t : String} {n : Int}

theorem signedDigits_of_number (h : wholeNumber? t.toList = some n) : signedDigits? digitValue? t.toList = some n := by
  rw [wholeNumber?] at h
  split at h
  · cases h
  · exact h

theorem wholeNumber_chars (h : wholeNumber? t.toList = some n) :
    ∀ c ∈ t.toList, isDecimalDigit c = true ∨ c ∈ ['_', '-', '+'] :=
  digit_of_signedDigits (signedDigits_of_number h)

/-- Nothing that stands in the text of a number has a lower case of its own. -/
theorem toLower_of_numberChar {c : Char} (h : isDecimalDigit c = true ∨ c ∈ ['_', '-', '+', '.']) : c.toLower = c :=
  h.elim toLower_of_digit ((by decide : ∀ c ∈ ['_', '-', '+', '.'], c.toLower = c) c)

theorem lowerAscii_of_number (h : wholeNumber? t.toList = some n) : lowerAscii t = t := by
  have hmap : t.toList.map Char.toLower = t.toList.map id :=
    List.map_congr_left fun c hc => toLower_of_numberChar ((wholeNumber_chars h c hc).imp_right (List.mem_append_left ['.']))
  rw [lowerAscii, hmap, List.map_id, String.ofList_toList]

end Settings

namespace Value

open TestHooks.Settings TestHooks.Text

variable {t : String} {n : Int}

theorem trimmed_number_text (ht : trim t = t) : trimWhile isNumberBlank t.toList = t.toList := by
  have hp (c : Char) (h : isNumberBlank c = true) : isBlank c = true := by
    rw [isNumberBlank, Bool.and_eq_true] at h
    exact h.1
  rw [← ht, trimWhile_of_trim hp]

/-- A text without blanks at its ends is a number up to its point, and zeros behind that. -/
theorem checkIntText_of_trim (ht : trim t = t) :
    checkIntText t =
      let whole := t.toList.takeWhile (· != '.')
      let fraction := t.toList.dropWhile (· != '.')
      if maxNumberLength < t.utf8ByteSize then .fail .oversizedInt
      else if fraction.isEmpty || (1 < fraction.length && (fraction.drop 1).all (· == '0')) then
        (signedDigits? asciiDigit? whole).elim (.fail .unclearInt) .ok
      else .fail .unclearInt := by
  have hdrop := @List.drop_left _ (t.toList.takeWhile (· != '.')) (t.toList.dropWhile (· != '.'))
  rw [List.takeWhile_append_dropWhile] at hdrop
  rewrite [checkIntText, trimmed_number_text ht, hdrop, String.ofList_toList]
  dsimp only
  cases signedDigits? asciiDigit? (t.toList.takeWhile (· != '.')) <;> rfl

/-- Nothing but digits, underscores, a sign and a point stands in a text that is read as a number. -/
theorem checkIntText_chars (ht : trim t = t) (h : checkIntText t = .ok n) :
    ∀ c ∈ t.toList, isDecimalDigit c = true ∨ c ∈ ['_', '-', '+', '.'] := by
  have hparts := @List.takeWhile_append_dropWhile _ (· != '.') t.toList
  have hpoint : ∀ c ∈ (t.toList.dropWhile (· != '.')).head?, c = '.' := by
    intro c hc
    have := List.head?_dropWhile_not (· != '.') t.toList
    rw [Option.mem_def.1 hc] at this
    simpa using this
  rw [checkIntText_of_trim ht] at h
  dsimp only at h
  generalize t.toList.takeWhile (· != '.') = whole at h hparts
  generalize t.toList.dropWhile (· != '.') = fraction at h hparts hpoint
  split_ifs at h with hlong hzeros
  · cases h
  · cases hwhole : signedDigits? asciiDigit? whole with
    | none =>
      rw [hwhole] at h
      cases h
    | some m =>
      rw [← hparts]
      intro c hc
      rcases List.mem_append.1 hc with hc | hc
      · exact (digit_of_signedDigits hwhole c hc).imp decimal_of_asciiDigit (List.mem_append_left ['.'])
      · cases fraction with
        | nil => cases hc
        | cons d zeros =>
          obtain rfl : d = '.' := hpoint d rfl
          rcases List.mem_cons.1 hc with rfl | hc
          · exact .inr (by decide)
          · simp only [List.isEmpty_cons, Bool.false_or, Bool.and_eq_true, List.drop_one, List.tail_cons,
              List.all_eq_true, beq_iff_eq] at hzeros
            rw [hzeros.2 c hc]
            exact .inl (by decide)
  · cases h

theorem checkIntText_of_no_point (ht : trim t = t) (hp : '.' ∉ t.toList) :
    checkIntText t =
      if maxNumberLength < t.utf8ByteSize then .fail .oversizedInt
      else (signedDigits? asciiDigit? t.toList).elim (.fail .unclearInt) .ok := by
  have hplain : ∀ c ∈ t.toList, (c != '.') = true := fun c hc => bne_iff_ne.2 fun h => hp (h ▸ hc)
  rw [checkIntText_of_trim ht, List.takeWhile_eq_self_iff.2 hplain, List.dropWhile_eq_nil_iff.2 hplain]
  rfl

/-- The text of a whole number is read as this number if it is short and of ASCII characters, and not at all
otherwise. -/
theorem checkIntText_of_number (ht : trim t = t) (h : wholeNumber? t.toList = some n) (m : Int) :
    checkIntText t = .ok m ↔
      m = n ∧ (∀ c ∈ t.toList, c.toNat < 128) ∧ t.toList.length ≤ maxNumberLength := by
  have hp : '.' ∉ t.toList := fun hc => by
    rcases wholeNumber_chars h '.' hc with hd | hd
    · exact absurd hd (by decide)
    · exact absurd hd (by decide)
  rw [checkIntText_of_no_point ht hp]
  by_cases hascii : ∀ c ∈ t.toList, c.toNat < 128
  · have hsize : t.utf8ByteSize = t.toList.length := by
      rw [← utf8ByteSize_of_ascii hascii, String.ofList_toList]
    have hread : signedDigits? asciiDigit? t.toList = some n := by
      rw [← signedDigits_of_number h]
      exact signedDigits_congr fun c hc => (digitValue?_of_ascii (hascii c hc)).symm
    rw [hsize, hread]
    by_cases hlength : t.toList.length ≤ maxNumberLength
    · rw [if_neg (Nat.not_lt.2 hlength)]
      exact ⟨fun hm => ⟨(Except.ok.inj hm).symm, hascii, hlength⟩, fun hm => hm.1 ▸ rfl⟩
    · rw [if_pos (Nat.not_le.1 hlength)]
      exact ⟨nofun, fun hm => absurd hm.2.2 hlength⟩
  · have hread : signedDigits? asciiDigit? t.toList = none := by
      by_contra hsome
      obtain ⟨m, hm⟩ := Option.ne_none_iff_exists'.1 hsome
      refine hascii fun c hc => (digit_of_signedDigits hm c hc).elim ascii_of_asciiDigit fun hsign => ?_
      exact (by decide : ∀ c ∈ ['_', '-', '+'], c.toNat < 128) c hsign
    rw [hread]
    refine ⟨fun hm => ?_, fun hm => absurd hm.2.1 hascii⟩
    split at hm <;> cases hm

end Value

end TestHooks
