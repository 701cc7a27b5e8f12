import Mathlib.Data.List.TakeWhile
import Mathlib.Tactic.ByContra
import TestHooks.Expansion.Removal

/-!
# What removing spans leaves

Removing spans drops characters and keeps the others in order. The dropped places are those of the spans, blanks
around them on their lines, and line breaks of lines on which nothing else is left (`GoesWith`). Spans are taken
from the last to the first; the places dropped for one span never reach into the one before.
-/

namespace TestHooks.Expansion

open TestHooks.Text

/-- The characters whose places, counted from `i`, are not dropped. -/
def keepFrom (dropped : Nat → Bool) (i : Nat) : List Char → List Char
  | [] => []
  | c :: cs => if dropped i then keepFrom dropped (i + 1) cs else c :: keepFrom dropped (i + 1) cs

theorem keepFrom_append (dropped : Nat → Bool) (i : Nat) (cs ds : List Char) :
    keepFrom dropped i (cs ++ ds) = keepFrom dropped i cs ++ keepFrom dropped (i + cs.length) ds := by
  induction cs generalizing i with
  | nil => rfl
  | cons c cs ih =>
    rw [List.cons_append, keepFrom, keepFrom, ih, List.length_cons]
    have hi : i + 1 + cs.length = i + (cs.length + 1) := by omega
    rw [hi]
    split <;> rfl

theorem keepFrom_congr {D E : Nat → Bool} {i : Nat} {cs : List Char}
    (h : ∀ k, i ≤ k → k < i + cs.length → D k = E k) : keepFrom D i cs = keepFrom E i cs := by
  induction cs generalizing i with
  | nil => rfl
  | cons c cs ih =>
    rw [List.length_cons] at h
    have hrest : keepFrom D (i + 1) cs = keepFrom E (i + 1) cs := by
      apply ih
      intro k hk hlt
      exact h k (by omega) (by omega)
    rw [keepFrom, keepFrom, h i (by omega) (by omega), hrest]

theorem keepFrom_all {D : Nat → Bool} {i : Nat} {cs : List Char}
    (h : ∀ k, i ≤ k → k < i + cs.length → D k = false) : keepFrom D i cs = cs := by
  induction cs generalizing i with
  | nil => rfl
  | cons c cs ih =>
    rw [List.length_cons] at h
    rw [keepFrom, h i (by omega) (by omega), if_neg Bool.false_ne_true, ih]
    intro k hk hlt
    exact h k (by omega) (by omega)

theorem keepFrom_none {D : Nat → Bool} {i : Nat} {cs : List Char}
    (h : ∀ k, i ≤ k → k < i + cs.length → D k = true) : keepFrom D i cs = [] := by
  induction cs generalizing i with
  | nil => rfl
  | cons c cs ih =>
    rw [List.length_cons] at h
    rw [keepFrom, h i (by omega) (by omega), if_pos rfl, ih]
    intro k hk hlt
    exact h k (by omega) (by omega)

/-- Where a part of the kept characters ends. -/
theorem keepFrom_split {D : Nat → Bool} {i : Nat} {cs before after : List Char}
    (h : keepFrom D i cs = before ++ after) :
    ∃ m ≤ cs.length, after = keepFrom D (i + m) (cs.drop m) ∧
      ∀ k < m, D (i + k) = false → ∃ c ∈ before, cs[k]? = some c := by
  induction cs generalizing i before with
  | nil =>
    obtain ⟨rfl, rfl⟩ := List.append_eq_nil_iff.1 h.symm
    exact ⟨0, Nat.le_refl _, rfl, by simp⟩
  | cons c cs ih =>
    cases before with
    | nil => exact ⟨0, Nat.zero_le _, by simpa using h.symm, by simp⟩
    | cons b before =>
      rw [keepFrom] at h
      by_cases hd : D i = true
      · rw [if_pos hd] at h
        obtain ⟨m, hm, ha, hk⟩ := ih h
        refine ⟨m + 1, by simpa using hm, ?_, ?_⟩
        · rw [ha, List.drop_succ_cons, Nat.add_right_comm, Nat.add_assoc]
        · intro k hlt hf
          cases k with
          | zero => simp [hd] at hf
          | succ k =>
            rw [List.getElem?_cons_succ]
            exact hk k (by omega) (by rwa [Nat.add_right_comm, Nat.add_assoc])
      · rw [if_neg hd, List.cons_append, List.cons.injEq] at h
        obtain ⟨m, hm, ha, hk⟩ := ih h.2
        refine ⟨m + 1, by simpa using hm, ?_, ?_⟩
        · rw [ha, List.drop_succ_cons, Nat.add_right_comm, Nat.add_assoc]
        · intro k hlt hf
          cases k with
          | zero => exact ⟨c, by simp [h.1], rfl⟩
          | succ k =>
            obtain ⟨x, hx, hc⟩ := hk k (by omega) (by rwa [Nat.add_right_comm, Nat.add_assoc])
            exact ⟨x, List.mem_cons_of_mem _ hx, by rwa [List.getElem?_cons_succ]⟩

/-- Where the first kept character stands. -/
theorem keepFrom_cons {D : Nat → Bool} {i : Nat} {cs more : List Char} {c : Char} (h : keepFrom D i cs = c :: more) :
    ∃ d, cs[d]? = some c ∧ D (i + d) = false ∧ (∀ k < d, D (i + k) = true) ∧
      more = keepFrom D (i + d + 1) (cs.drop (d + 1)) := by
  induction cs generalizing i with
  | nil => cases h
  | cons b cs ih =>
    rw [keepFrom] at h
    by_cases hd : D i = true
    · rw [if_pos hd] at h
      obtain ⟨d, hc, hf, hk, hm⟩ := ih h
      refine ⟨d + 1, by simpa using hc, by rwa [← Nat.add_assoc, Nat.add_right_comm], ?_, ?_⟩
      · intro k hlt
        cases k with
        | zero => exact hd
        | succ k =>
          rw [← Nat.add_assoc, Nat.add_right_comm]
          exact hk k (by omega)
      · rw [hm, List.drop_succ_cons]
        congr 1
        omega
    · rw [if_neg hd, List.cons.injEq] at h
      exact ⟨0, by simp [h.1], by simpa using hd, by simp, by simpa using h.2.symm⟩

theorem mem_keepFrom {D : Nat → Bool} {i k : Nat} {cs : List Char} {c : Char} (hc : cs[k]? = some c)
    (hd : D (i + k) = false) : c ∈ keepFrom D i cs := by
  induction cs generalizing i k with
  | nil => cases hc
  | cons b cs ih =>
    rw [keepFrom]
    cases k with
    | zero =>
      rw [List.getElem?_cons_zero, Option.some.injEq] at hc
      rw [if_neg (by simpa using hd), hc]
      exact List.mem_cons_self
    | succ k =>
      rw [List.getElem?_cons_succ] at hc
      have hm := ih hc (by rwa [Nat.add_right_comm, Nat.add_assoc])
      split
      · exact hm
      · exact List.mem_cons_of_mem _ hm

/-- Before the first dropped place the text is as it was. -/
theorem keepFrom_untouched {D : Nat → Bool} {cs : List Char} {n : Nat} (hn : n ≤ cs.length) (hD : ∀ i < n, D i = false) :
    keepFrom D 0 cs = cs.take n ++ keepFrom D n (cs.drop n) := by
  have hl : (cs.take n).length = n := List.length_take_of_le hn
  have hall : keepFrom D 0 (cs.take n) = cs.take n := by
    apply keepFrom_all
    intro k _ hk
    exact hD k (by omega)
  conv => lhs; rw [← List.take_append_drop n cs]
  rw [keepFrom_append, hl, Nat.zero_add, hall]

section

variable {D : Nat → Bool} {cs before after : List Char} {c : Char} {n : Nat}

/-- Where a part of the characters that are kept from a place on ends. -/
theorem keepFrom_drop_split (hn : n ≤ cs.length) (h : keepFrom D n (cs.drop n) = before ++ after) :
    ∃ m, n ≤ m ∧ m ≤ cs.length ∧ after = keepFrom D m (cs.drop m) ∧
      ∀ k, n ≤ k → k < m → D k = false → ∃ x ∈ before, cs[k]? = some x := by
  obtain ⟨m, hm, hafter, hkept⟩ := keepFrom_split h
  rw [List.length_drop] at hm
  refine ⟨n + m, by omega, by omega, by rw [hafter, List.drop_drop], ?_⟩
  intro k hk hlt hd
  obtain ⟨x, hx, he⟩ := hkept (k - n) (by omega) (by rwa [Nat.add_sub_cancel' hk])
  rw [List.getElem?_drop, Nat.add_sub_cancel' hk] at he
  exact ⟨x, hx, he⟩

/-- Where the first character that is kept from a place on stands. -/
theorem keepFrom_drop_cons (h : keepFrom D n (cs.drop n) = c :: after) :
    ∃ d, n ≤ d ∧ cs[d]? = some c ∧ D d = false ∧ (∀ k, n ≤ k → k < d → D k = true) ∧
      after = keepFrom D (d + 1) (cs.drop (d + 1)) := by
  obtain ⟨d, hc, hd, hdropped, hafter⟩ := keepFrom_cons h
  rw [List.getElem?_drop] at hc
  refine ⟨n + d, by omega, hc, hd, ?_, by rw [hafter, List.drop_drop, Nat.add_assoc]⟩
  intro k hk hlt
  have := hdropped (k - n) (by omega)
  rwa [Nat.add_sub_cancel' hk] at this

end

/-! ### What goes with the spans -/

/-- A blank that is no line break stands at the place. -/
def InlineBlankAt (cs : List Char) (i : Nat) : Prop :=
  ∃ c, cs[i]? = some c ∧ isBlank c = true ∧ c ≠ '\n'

def Span.Covers (s : Span) (i : Nat) : Prop := s.start ≤ i ∧ i < s.stop

/-- Everything is dropped from the beginning of a line through the place. -/
def LineDropped (cs : List Char) (D : Nat → Bool) (i : Nat) : Prop :=
  ∃ l ≤ i, (l = 0 ∨ (cs[l - 1]? = some '\n' ∧ D (l - 1) = false)) ∧ ∀ k, l ≤ k → k ≤ i → D k = true

/-- Why the character at a place goes with the spans: it is in one, it is a blank before one on its line, or it is a
blank after one, with only blanks and other spans between. A line break goes only with everything before it on its
line. -/
def GoesWith (cs : List Char) (spans : List Span) (D : Nat → Bool) (i : Nat) : Prop :=
  (∃ s ∈ spans, s.Covers i) ∨
    (∃ s ∈ spans, i < s.start ∧ ∀ k, i ≤ k → k < s.start → InlineBlankAt cs k) ∨
    ∃ s ∈ spans, s.stop ≤ i ∧ (∀ k, s.stop ≤ k → k < i → InlineBlankAt cs k ∨ ∃ s' ∈ spans, s'.Covers k) ∧
      (InlineBlankAt cs i ∨ (cs[i]? = some '\n' ∧ LineDropped cs D i))

/-- The places that go with the spans, among them all places of the spans. -/
structure Drops (cs : List Char) (spans : List Span) (D : Nat → Bool) : Prop where
  inside : ∀ s ∈ spans, ∀ i, s.Covers i → D i = true
  reason : ∀ i, D i = true → GoesWith cs spans D i

/-- The span has a place in the text. It ends with a character that is not blank, and another one stands somewhere
behind it. -/
structure Span.StandsIn (s : Span) (cs : List Char) : Prop where
  start_lt_stop : s.start < s.stop
  closing : ∃ c, cs[s.stop - 1]? = some c ∧ isBlank c = false
  followed : ∃ q c, s.stop ≤ q ∧ cs[q]? = some c ∧ isBlank c = false

/-! ### One span -/

theorem lastLine_split (cs : List Char) :
    ∃ before, cs = before ++ lastLine cs ∧ (before = [] ∨ before.getLast? = some '\n') ∧ '\n' ∉ lastLine cs := by
  have hs := List.takeWhile_append_dropWhile (p := (· != '\n')) (l := cs.reverse)
  refine ⟨(cs.reverse.dropWhile (· != '\n')).reverse, ?_, ?_, ?_⟩
  · rw [lastLine, ← List.reverse_append, hs, List.reverse_reverse]
  · cases hd : cs.reverse.dropWhile (· != '\n') with
    | nil => exact .inl rfl
    | cons c ds =>
      have hc := List.head_dropWhile_not (p := (· != '\n')) (l := cs.reverse) (by rw [hd]; exact List.cons_ne_nil _ _)
      simp only [hd, List.head_cons, bne_eq_false_iff_eq] at hc
      exact .inr (by rw [List.getLast?_reverse, hc]; rfl)
  · intro hm
    rw [lastLine, List.mem_reverse] at hm
    simpa using List.all_eq_true.1 List.all_takeWhile _ hm

theorem firstLine_split (cs : List Char) :
    '\n' ∉ firstLine cs ∧ (cs = firstLine cs ∨ ∃ more, cs = firstLine cs ++ '\n' :: more) := by
  have hs := List.takeWhile_append_dropWhile (p := (· != '\n')) (l := cs)
  constructor
  · intro hm
    simpa using List.all_eq_true.1 List.all_takeWhile _ hm
  · cases hd : cs.dropWhile (· != '\n') with
    | nil =>
      rw [hd, List.append_nil] at hs
      exact .inl hs.symm
    | cons c ds =>
      have hc := List.head_dropWhile_not (p := (· != '\n')) (l := cs) (by rw [hd]; exact List.cons_ne_nil _ _)
      simp only [hd, List.head_cons, bne_eq_false_iff_eq] at hc
      rw [hd, hc] at hs
      exact .inr ⟨ds, hs.symm⟩

/-- The dropped places with an interval added. -/
def widen (D : Nat → Bool) (lo hi : Nat) (i : Nat) : Bool :=
  D i || (decide (lo ≤ i) && decide (i < hi))

theorem widen_eq_true {D : Nat → Bool} {lo hi i : Nat} : widen D lo hi i = true ↔ D i = true ∨ (lo ≤ i ∧ i < hi) := by
  simp [widen]

theorem keepFrom_widen {D : Nat → Bool} {cs : List Char} {lo hi : Nat} (hlo : lo ≤ hi) (hhi : hi ≤ cs.length)
    (hD : ∀ i < lo, D i = false) :
    keepFrom (widen D lo hi) 0 cs = cs.take lo ++ keepFrom D hi (cs.drop hi) := by
  have huntouched : ∀ i < lo, widen D lo hi i = false := by
    intro i hi
    rw [widen, hD i hi, Bool.false_or, Bool.and_eq_false_iff, decide_eq_false_iff_not]
    omega
  have hsplit : cs.drop lo = (cs.drop lo).take (hi - lo) ++ cs.drop hi := by
    conv => lhs; rw [← List.take_append_drop (hi - lo) (cs.drop lo)]
    rw [List.drop_drop, Nat.add_sub_cancel' hlo]
  have hl : ((cs.drop lo).take (hi - lo)).length = hi - lo := by
    rw [List.length_take, List.length_drop]
    omega
  have hmiddle : keepFrom (widen D lo hi) lo ((cs.drop lo).take (hi - lo)) = [] := by
    apply keepFrom_none
    intro k hk hlt
    rw [hl] at hlt
    rw [widen_eq_true]
    omega
  rw [keepFrom_untouched (by omega) huntouched, hsplit, keepFrom_append, hmiddle, hl, Nat.add_sub_cancel' hlo,
    List.nil_append]
  congr 1
  apply keepFrom_congr
  intro k hk _
  have hk' : ¬k < hi := by omega
  simp [widen, hk']

/-- The interval that goes with a span when `D` is dropped already: blanks before it on its line, the span, and what
is kept of the blanks behind it. The line break at its end goes only if the interval begins with its line. -/
structure Widens (cs : List Char) (D : Nat → Bool) (s : Span) (lo hi : Nat) : Prop where
  le_start : lo ≤ s.start
  stop_le : s.stop ≤ hi
  lead : ∀ k, lo ≤ k → k < s.start → InlineBlankAt cs k
  trail : ∀ k, s.stop ≤ k → k < hi → D k = false →
    InlineBlankAt cs k ∨ (k + 1 = hi ∧ cs[k]? = some '\n' ∧ (lo = 0 ∨ cs[lo - 1]? = some '\n'))

section

variable {cs : List Char} {D : Nat → Bool} {s : Span}

/-- Where the last line before a place begins. -/
theorem lastLine_begins {n : Nat} (hn : n ≤ cs.length) :
    ∃ lo, lo + (lastLine (cs.take n)).length = n ∧ (lo = 0 ∨ cs[lo - 1]? = some '\n') ∧
      ∀ k, lo ≤ k → k < n → ∃ x ∈ lastLine (cs.take n), x ≠ '\n' ∧ cs[k]? = some x := by
  obtain ⟨before, hsplit, hbegins, hline⟩ := lastLine_split (cs.take n)
  generalize lastLine (cs.take n) = lead at hsplit hline ⊢
  have hlength : before.length + lead.length = n := by
    rw [← List.length_append, ← hsplit, List.length_take_of_le hn]
  have hget : ∀ k < n, cs[k]? = (before ++ lead)[k]? := by
    intro k hk
    rw [← hsplit, List.getElem?_take_of_lt hk]
  refine ⟨before.length, hlength, hbegins.imp (fun h => by rw [h]; rfl) fun h => ?_, fun k hk hlt => ?_⟩
  · rw [List.getLast?_eq_getElem?] at h
    have hpos : before.length - 1 < before.length := (List.getElem?_eq_some_iff.1 h).1
    rw [hget _ (by omega), List.getElem?_append_left hpos, h]
  · have hk' : k - before.length < lead.length := by omega
    refine ⟨lead[k - before.length], List.getElem_mem hk', fun he => hline (he ▸ List.getElem_mem hk'), ?_⟩
    rw [hget k hlt, List.getElem?_append_right hk, List.getElem?_eq_getElem hk']

/-- Of the text before a span and what is kept behind it the gap is closed. -/
theorem removeSpan_keepFrom (hs : s.start < s.stop) (hstop : s.stop ≤ cs.length) (hD : ∀ i < s.stop, D i = false) :
    removeSpan (keepFrom D 0 cs) s = closeGap (cs.take s.start) (keepFrom D s.stop (cs.drop s.stop)) := by
  have hl : (cs.take s.stop).length = s.stop := List.length_take_of_le hstop
  have hbefore : (cs.take s.stop).take s.start = cs.take s.start := by
    rw [List.take_take, Nat.min_eq_left (by omega)]
  rw [removeSpan, keepFrom_untouched hstop hD, List.take_append_of_le_length (by omega), hbefore, List.drop_left' hl]

/-- A span that stands alone on its lines goes with them. -/
theorem widens_line (hs : s.start < s.stop) (hstop : s.stop ≤ cs.length) (hD : ∀ i < s.stop, D i = false)
    {kept more : List Char} (hkept : keepFrom D s.stop (cs.drop s.stop) = kept)
    (hmore : kept = firstLine kept ++ '\n' :: more) (hlead : ∀ x ∈ lastLine (cs.take s.start), isBlank x = true)
    (htrail : ∀ x ∈ firstLine kept, isBlank x = true) :
    ∃ lo hi, cs.take (s.start - (lastLine (cs.take s.start)).length) ++ more = keepFrom (widen D lo hi) 0 cs ∧
      Widens cs D s lo hi := by
  obtain ⟨lo, hlo, hbegins, hline⟩ := lastLine_begins (show s.start ≤ cs.length by omega)
  obtain ⟨m, hm, -, hrest, hbefore⟩ := keepFrom_drop_split hstop (hkept.trans hmore)
  obtain ⟨d, hd, hbreak, -, hdropped, hafter⟩ := keepFrom_drop_cons hrest.symm
  have hlength : d < cs.length := (List.getElem?_eq_some_iff.1 hbreak).1
  refine ⟨lo, d + 1, ?_, by omega, by omega, ?_, ?_⟩
  · rw [show s.start - (lastLine (cs.take s.start)).length = lo by omega, hafter, keepFrom_widen (by omega) hlength]
    intro i hi
    exact hD i (by omega)
  · intro k hk hlt
    obtain ⟨x, hx, hne, hxk⟩ := hline k hk hlt
    exact ⟨x, hxk, hlead x hx, hne⟩
  · intro k hk hlt hDk
    by_cases hkm : k < m
    · obtain ⟨x, hx, hxk⟩ := hbefore k hk hkm hDk
      exact .inl ⟨x, hxk, htrail x hx, fun he => (firstLine_split kept).1 (he ▸ hx)⟩
    · have hkd : k = d := by
        by_contra hne
        have := hdropped k (by omega) (by omega)
        rw [hDk] at this
        cases this
      exact .inr ⟨by omega, by rw [hkd, hbreak], hbegins⟩

/-- Any other span goes with the spaces and tabs behind it. -/
theorem widens_inline (hs : s.start < s.stop) (hstop : s.stop ≤ cs.length) (hD : ∀ i < s.stop, D i = false)
    {kept : List Char} (hkept : keepFrom D s.stop (cs.drop s.stop) = kept) :
    ∃ lo hi, cs.take s.start ++ kept.dropWhile isSpaceOrTab = keepFrom (widen D lo hi) 0 cs ∧ Widens cs D s lo hi := by
  have hsplit := List.takeWhile_append_dropWhile (p := isSpaceOrTab) (l := kept)
  obtain ⟨m, hm, hlength, hmore, hbefore⟩ := keepFrom_drop_split hstop (hkept.trans hsplit.symm)
  refine ⟨s.start, m, ?_, Nat.le_refl _, hm, by omega, ?_⟩
  · rw [hmore, keepFrom_widen (by omega) hlength]
    intro i hi
    exact hD i (by omega)
  · intro k hk hlt hDk
    obtain ⟨x, hx, hxk⟩ := hbefore k hk hlt hDk
    have hx := List.all_eq_true.1 List.all_takeWhile _ hx
    simp only [isSpaceOrTab, Bool.or_eq_true, beq_iff_eq] at hx
    rcases hx with rfl | rfl
    · exact .inl ⟨_, hxk, by decide, by decide⟩
    · exact .inl ⟨_, hxk, by decide, by decide⟩

theorem removeSpan_keep {q : Nat} {c : Char} (hs : s.start < s.stop) (hD : ∀ i, D i = true → s.stop ≤ i)
    (hsq : s.stop ≤ q) (hq : cs[q]? = some c) (hc : isBlank c = false) (hDq : D q = false) :
    ∃ lo hi, removeSpan (keepFrom D 0 cs) s = keepFrom (widen D lo hi) 0 cs ∧ Widens cs D s lo hi := by
  have hlength : q < cs.length := (List.getElem?_eq_some_iff.1 hq).1
  have hstop : s.stop ≤ cs.length := by omega
  have huntouched : ∀ i < s.stop, D i = false := by
    intro i hi
    rw [Bool.eq_false_iff]
    intro hd
    have := hD i hd
    omega
  have hcq : (cs.drop s.stop)[q - s.stop]? = some c := by
    rw [List.getElem?_drop, Nat.add_sub_cancel' hsq, hq]
  have hkept : c ∈ keepFrom D s.stop (cs.drop s.stop) := mem_keepFrom hcq (by rw [Nat.add_sub_cancel' hsq, hDq])
  rw [removeSpan_keepFrom hs hstop huntouched]
  generalize hK : keepFrom D s.stop (cs.drop s.stop) = kept at hkept
  unfold closeGap
  dsimp only
  split
  · next hblank =>
    simp only [Bool.and_eq_true, List.all_eq_true] at hblank
    obtain htrail | ⟨more, hmore⟩ := (firstLine_split kept).2
    · -- The character that is kept behind the span is not blank.
      rw [hblank.2 c (htrail ▸ hkept)] at hc
      cases hc
    · have htake : (cs.take s.start).take ((cs.take s.start).length - (lastLine (cs.take s.start)).length) =
          cs.take (s.start - (lastLine (cs.take s.start)).length) := by
        rw [List.take_take, List.length_take_of_le (by omega), Nat.min_eq_left (Nat.sub_le _ _)]
      have hdrop : kept.drop ((firstLine kept).length + 1) = more := by
        rw [congrArg (List.drop _) hmore, ← List.drop_drop, List.drop_left]
        rfl
      rw [htake, hdrop]
      exact widens_line hs hstop huntouched hK hmore hblank.1 hblank.2
  · exact widens_inline hs hstop huntouched hK

end

/-! ### All spans -/

section

variable {cs : List Char} {spans : List Span} {D : Nat → Bool} {s : Span} {i q : Nat} {c : Char}

theorem not_inlineBlankAt (hq : cs[q]? = some c) (hc : isBlank c = false) : ¬InlineBlankAt cs q := by
  rintro ⟨d, hd, hb, -⟩
  rw [hq, Option.some.injEq] at hd
  rw [← hd, hc] at hb
  cases hb

/-- Nothing is dropped before the end of an earlier span. -/
theorem Drops.stop_le (h : Drops cs spans D) (hs : s.StandsIn cs) (hle : ∀ s' ∈ spans, s.stop ≤ s'.start)
    (hlt : ∀ s' ∈ spans, s'.start < s'.stop) (hi : D i = true) : s.stop ≤ i := by
  rcases h.reason i hi with ⟨s', hm, hcov⟩ | ⟨s', hm, his, hblank⟩ | ⟨s', hm, his, -⟩
  · have := hle s' hm
    have := hcov.1
    omega
  · by_contra hn
    obtain ⟨d, hd, hb⟩ := hs.closing
    have := hle s' hm
    exact not_inlineBlankAt hd hb (hblank (s.stop - 1) (by omega) (by omega))
  · have := hle s' hm
    have := hlt s' hm
    omega

/-- A character behind the spans that is not blank is kept, and so is everything behind it. -/
theorem Drops.lt_of_behind (h : Drops cs spans D) (hq : cs[q]? = some c) (hc : isBlank c = false)
    (hle : ∀ s' ∈ spans, s'.stop ≤ q) (hlt : ∀ s' ∈ spans, s'.start < s'.stop) (hi : D i = true) : i < q := by
  by_contra hn
  have hcovers : ∀ k, q ≤ k → ¬∃ s' ∈ spans, s'.Covers k := by
    rintro k hk ⟨s', hm, hcov⟩
    have := hle s' hm
    have := hcov.2
    omega
  rcases h.reason i hi with hcov | ⟨s', hm, his, -⟩ | ⟨s', hm, his, hbetween, hblank⟩
  · exact hcovers i (by omega) hcov
  · have := hle s' hm
    have := hlt s' hm
    omega
  · rcases Nat.eq_or_lt_of_le (Nat.le_of_not_lt hn) with rfl | hlt'
    · rcases hblank with hblank | ⟨hnl, -⟩
      · exact not_inlineBlankAt hq hc hblank
      · rw [hq, Option.some.injEq] at hnl
        rw [hnl] at hc
        cases hc
    · rcases hbetween q (hle s' hm) hlt' with hblank | hcov
      · exact not_inlineBlankAt hq hc hblank
      · exact hcovers q (Nat.le_refl q) hcov

theorem Span.StandsIn.not_break (hs : s.StandsIn cs) (hi : s.stop ≤ i) (hnl : cs[i - 1]? = some '\n') :
    s.stop ≤ i - 1 := by
  by_contra hn
  obtain ⟨d, hd, hb⟩ := hs.closing
  have hpos := hs.start_lt_stop
  have he : i - 1 = s.stop - 1 := by omega
  rw [← he, hnl, Option.some.injEq] at hd
  rw [← hd] at hb
  cases hb

section

variable {lo hi : Nat} (hs : s.StandsIn cs) (hw : Widens cs D s lo hi) (hD : ∀ i, D i = true → s.stop ≤ i)

include hs hw hD

/-- A line break behind the span that is kept so far goes only at the end of the interval. -/
theorem Widens.eq_of_break {l : Nat} (hl : D l = true) (hnl : cs[l - 1]? = some '\n') (hDl : D (l - 1) = false)
    (hlt : l - 1 < hi) : s.stop ≤ l - 1 ∧ l = hi ∧ (lo = 0 ∨ cs[lo - 1]? = some '\n') := by
  have hstop := hs.not_break (hD l hl) hnl
  have hpos := hs.start_lt_stop
  rcases hw.trail (l - 1) hstop hlt hDl with ⟨d, hd, -, hne⟩ | ⟨hlast, -, hlo⟩
  · rw [hnl, Option.some.injEq] at hd
    exact absurd hd.symm hne
  · exact ⟨hstop, by omega, hlo⟩

theorem Widens.begins (hlo : lo = 0 ∨ cs[lo - 1]? = some '\n') :
    lo = 0 ∨ (cs[lo - 1]? = some '\n' ∧ widen D lo hi (lo - 1) = false) := by
  by_cases h0 : lo = 0
  · exact .inl h0
  · refine .inr ⟨hlo.resolve_left h0, ?_⟩
    rw [Bool.eq_false_iff]
    intro hE
    rcases widen_eq_true.1 hE with hd | hint
    · have := hD _ hd
      have := hs.start_lt_stop
      have := hw.le_start
      omega
    · omega

/-- A dropped line stays dropped from a beginning of a line on. -/
theorem Widens.lineDropped (h : LineDropped cs D i) : LineDropped cs (widen D lo hi) i := by
  obtain ⟨l, hl, hstart, hall⟩ := h
  have hall' : ∀ k, l ≤ k → k ≤ i → widen D lo hi k = true :=
    fun k hk hki => widen_eq_true.2 (.inl (hall k hk hki))
  rcases hstart with rfl | ⟨hnl, hDl⟩
  · exact ⟨0, hl, .inl rfl, hall'⟩
  by_cases hE : widen D lo hi (l - 1) = true
  · rcases widen_eq_true.1 hE with hd | ⟨hlol, hlhi⟩
    · rw [hd] at hDl
      cases hDl
    obtain ⟨hstop, rfl, hlo⟩ := hw.eq_of_break hs hD (hall l (Nat.le_refl l) hl) hnl hDl hlhi
    refine ⟨lo, by omega, hw.begins hs hD hlo, ?_⟩
    intro k hk hki
    by_cases hkl : k < l
    · exact widen_eq_true.2 (.inr ⟨hk, hkl⟩)
    · exact hall' k (by omega) hki
  · exact ⟨l, hl, .inr ⟨hnl, by simpa using hE⟩, hall'⟩

/-- Between the span and the end of the interval stand only blanks and later spans. -/
theorem Widens.between (h : Drops cs spans D) {k : Nat} (hk : s.stop ≤ k) (hlt : k + 1 < hi) :
    InlineBlankAt cs k ∨ ∃ s' ∈ spans, s'.Covers k := by
  by_cases hDk : D k = true
  · rcases h.reason k hDk with hcov | ⟨s', -, hks, hb⟩ | ⟨s', -, -, -, hb | ⟨-, l, hl, hstart, hall⟩⟩
    · exact .inr hcov
    · exact .inl (hb k (Nat.le_refl k) hks)
    · exact .inl hb
    · have hDl := hall l (Nat.le_refl l) hl
      rcases hstart with rfl | ⟨hnl, hDl'⟩
      · have := hD 0 hDl
        have := hs.start_lt_stop
        omega
      · obtain ⟨-, rfl, -⟩ := hw.eq_of_break hs hD hDl hnl hDl' (by omega)
        omega
  · rcases hw.trail k hk (by omega) (by simpa using hDk) with hb | ⟨hlast, -⟩
    · exact .inl hb
    · omega

theorem Widens.goesWith (h : Drops cs spans D) (hE : widen D lo hi i = true) :
    GoesWith cs (s :: spans) (widen D lo hi) i := by
  by_cases hDi : D i = true
  · rcases h.reason i hDi with ⟨s', hm, hcov⟩ | ⟨s', hm, hb⟩ | ⟨s', hm, his, hbetween, hblank⟩
    · exact .inl ⟨s', List.mem_cons_of_mem _ hm, hcov⟩
    · exact .inr (.inl ⟨s', List.mem_cons_of_mem _ hm, hb⟩)
    · refine .inr (.inr ⟨s', List.mem_cons_of_mem _ hm, his, ?_, ?_⟩)
      · intro k hk hki
        rcases hbetween k hk hki with hb | ⟨s'', hm', hcov⟩
        · exact .inl hb
        · exact .inr ⟨s'', List.mem_cons_of_mem _ hm', hcov⟩
      · rcases hblank with hb | ⟨hnl, hl⟩
        · exact .inl hb
        · exact .inr ⟨hnl, hw.lineDropped hs hD hl⟩
  · obtain ⟨hlo, hhi⟩ := (widen_eq_true.1 hE).resolve_left hDi
    by_cases hlead : i < s.start
    · refine .inr (.inl ⟨s, List.mem_cons_self, hlead, ?_⟩)
      intro k hk hks
      exact hw.lead k (by omega) hks
    by_cases hin : i < s.stop
    · exact .inl ⟨s, List.mem_cons_self, by omega, hin⟩
    refine .inr (.inr ⟨s, List.mem_cons_self, by omega, ?_, ?_⟩)
    · intro k hk hki
      rcases hw.between hs hD h hk (by omega) with hb | ⟨s', hm, hcov⟩
      · exact .inl hb
      · exact .inr ⟨s', List.mem_cons_of_mem _ hm, hcov⟩
    · rcases hw.trail i (by omega) hhi (by simpa using hDi) with hb | ⟨hlast, hnl, hlo0⟩
      · exact .inl hb
      · refine .inr ⟨hnl, lo, hlo, hw.begins hs hD hlo0, ?_⟩
        intro k hk hki
        exact widen_eq_true.2 (.inr ⟨hk, by omega⟩)

end

theorem Drops.step (h : Drops cs spans D) (hs : s.StandsIn cs) (hle : ∀ s' ∈ spans, s.stop ≤ s'.start)
    (hlt : ∀ s' ∈ spans, s'.start < s'.stop) (hq : cs[q]? = some c) (hc : isBlank c = false)
    (hsq : ∀ s' ∈ s :: spans, s'.stop ≤ q) :
    ∃ E, removeSpan (keepFrom D 0 cs) s = keepFrom E 0 cs ∧ Drops cs (s :: spans) E := by
  have hD : ∀ i, D i = true → s.stop ≤ i := fun i hi => h.stop_le hs hle hlt hi
  have hDq : D q = false := by
    rw [Bool.eq_false_iff]
    intro hd
    exact Nat.lt_irrefl q (h.lt_of_behind hq hc (fun s' hm => hsq s' (List.mem_cons_of_mem _ hm)) hlt hd)
  obtain ⟨lo, hi, hremove, hw⟩ := removeSpan_keep hs.start_lt_stop hD (hsq s List.mem_cons_self) hq hc hDq
  refine ⟨widen D lo hi, hremove, ?_, fun i hi => hw.goesWith hs hD h hi⟩
  intro s' hm k hcov
  rcases List.mem_cons.1 hm with rfl | hm
  · have := hcov.1
    have := hcov.2
    have := hw.le_start
    have := hw.stop_le
    exact widen_eq_true.2 (.inr ⟨by omega, by omega⟩)
  · exact widen_eq_true.2 (.inl (h.inside s' hm k hcov))

/-- The spans stand in the text one after another. -/
structure Apart (cs : List Char) (spans : List Span) : Prop where
  ordered : spans.Pairwise fun s s' => s.stop ≤ s'.start
  stands : ∀ s ∈ spans, s.StandsIn cs

theorem Apart.of_cons (h : Apart cs (s :: spans)) : Apart cs spans :=
  ⟨h.ordered.of_cons, fun s' hm => h.stands s' (List.mem_cons_of_mem _ hm)⟩

theorem Apart.sublist (h : Apart cs spans) {chosen : List Span} (hs : chosen.Sublist spans) : Apart cs chosen :=
  ⟨h.ordered.sublist hs, fun s hm => h.stands s (hs.subset hm)⟩

theorem Apart.starts_ordered (h : Apart cs spans) : spans.Pairwise fun s s' => s.start < s'.start := by
  refine List.pairwise_iff_forall_sublist.2 fun {a b} hab => ?_
  have hle := List.pairwise_iff_forall_sublist.1 h.ordered hab
  have hlt := (h.stands a (hab.subset List.mem_cons_self)).start_lt_stop
  omega

/-- Behind the last span stands a character that is not blank. -/
theorem Apart.followed (h : Apart cs spans) (hne : spans ≠ []) :
    ∃ q c, cs[q]? = some c ∧ isBlank c = false ∧ ∀ s ∈ spans, s.stop ≤ q := by
  induction spans with
  | nil => exact absurd rfl hne
  | cons s spans ih =>
    cases spans with
    | nil =>
      obtain ⟨q, c, hq, hc, hb⟩ := (h.stands s List.mem_cons_self).followed
      exact ⟨q, c, hc, hb, by simpa using hq⟩
    | cons s' spans =>
      obtain ⟨q, c, hc, hb, hle⟩ := ih h.of_cons (List.cons_ne_nil _ _)
      refine ⟨q, c, hc, hb, ?_⟩
      intro s'' hm
      rcases List.mem_cons.1 hm with rfl | hm
      · have := (List.pairwise_cons.1 h.ordered).1 s' List.mem_cons_self
        have := (h.stands s' (by simp)).start_lt_stop
        have := hle s' List.mem_cons_self
        omega
      · exact hle s'' hm

theorem Apart.drops (h : Apart cs spans) :
    ∃ D, spans.foldr (fun s code => removeSpan code s) cs = keepFrom D 0 cs ∧ Drops cs spans D := by
  induction spans with
  | nil =>
    refine ⟨fun _ => false, ?_, by simp, by simp⟩
    rw [keepFrom_all fun _ _ _ => rfl]
    rfl
  | cons s spans ih =>
    obtain ⟨D, hfold, hD⟩ := ih h.of_cons
    obtain ⟨q, c, hq, hc, hle⟩ := h.followed (List.cons_ne_nil _ _)
    have hlt : ∀ s' ∈ spans, s'.start < s'.stop := fun s' hm => (h.of_cons.stands s' hm).start_lt_stop
    obtain ⟨E, hE, hdrops⟩ :=
      hD.step (h.stands s List.mem_cons_self) (List.pairwise_cons.1 h.ordered).1 hlt hq hc hle
    exact ⟨E, by rw [List.foldr_cons, hfold, hE], hdrops⟩

/-- The order in which spans are listed does not matter. -/
theorem Apart.removeSpans_perm (h : Apart cs spans) {listed : List Span} (hp : listed.Perm spans) :
    removeSpans cs listed = spans.foldr (fun s code => removeSpan code s) cs := by
  have hstrict := h.starts_ordered
  have hsorted : (listed.mergeSort fun a b => decide (b.start ≤ a.start)).Pairwise
      fun a b => decide (b.start ≤ a.start) = true := by
    apply List.pairwise_mergeSort
    · intro a b c hab hbc
      simp only [decide_eq_true_eq] at hab hbc ⊢
      omega
    · intro a b
      simp only [Bool.or_eq_true, decide_eq_true_eq]
      omega
  have hreverse : spans.reverse.Pairwise fun a b => decide (b.start ≤ a.start) = true := by
    rw [List.pairwise_reverse]
    exact hstrict.imp fun hab => decide_eq_true (Nat.le_of_lt hab)
  have hperm : (listed.mergeSort fun a b => decide (b.start ≤ a.start)).Perm spans.reverse :=
    ((List.mergeSort_perm listed _).trans hp).trans spans.reverse_perm.symm
  -- Spans that begin at the same place are the same.
  have hsame : ∀ ⦃a⦄, a ∈ spans → ∀ ⦃b⦄, b ∈ spans → a.start = b.start → a = b := by
    apply List.Pairwise.forall_of_forall_of_flip
    · intro a _ _
      rfl
    · exact hstrict.imp fun hab he => absurd he (Nat.ne_of_lt hab)
    · exact hstrict.imp fun hab he => absurd he (Nat.ne_of_gt hab)
  have heq : (listed.mergeSort fun a b => decide (b.start ≤ a.start)) = spans.reverse := by
    refine hperm.eq_of_pairwise ?_ hsorted hreverse
    intro a b ha hb hab hba
    simp only [decide_eq_true_eq] at hab hba
    exact hsame (by simpa using hperm.subset ha) (by simpa using hb) (by omega)
  rw [removeSpans, heq, List.foldl_reverse]

end

/-! ### Line breaks at the end -/

theorem dropEndWhile_append {p : Char → Bool} {cs ds : List Char} (hd : ∀ c ∈ ds, p c = true)
    (hc : ∀ c, cs.getLast? = some c → p c = false) : dropEndWhile p (cs ++ ds) = cs := by
  have hr : ds.reverse.dropWhile p = [] := by
    rw [List.dropWhile_eq_nil_iff]
    simpa using hd
  rw [dropEndWhile, List.reverse_append, List.dropWhile_append, hr, List.isEmpty_nil, if_pos rfl]
  cases hl : cs.reverse with
  | nil => rw [List.reverse_eq_nil_iff.1 hl]; rfl
  | cons c rs =>
    have hlast : cs.getLast? = some c := by rw [← List.head?_reverse, hl]; rfl
    rw [List.dropWhile_cons_of_neg (by rw [hc c hlast]; exact Bool.false_ne_true), ← hl, List.reverse_reverse]

theorem dropEndWhile_split (p : Char → Bool) (cs : List Char) :
    ∃ ds, cs = dropEndWhile p cs ++ ds ∧ (∀ c ∈ ds, p c = true) ∧
      ∀ c, (dropEndWhile p cs).getLast? = some c → p c = false := by
  have hs := List.takeWhile_append_dropWhile (p := p) (l := cs.reverse)
  refine ⟨(cs.reverse.takeWhile p).reverse, ?_, ?_, ?_⟩
  · rw [dropEndWhile, ← List.reverse_append, hs, List.reverse_reverse]
  · intro c hc
    rw [List.mem_reverse] at hc
    exact List.all_eq_true.1 List.all_takeWhile _ hc
  · intro c hc
    rw [dropEndWhile, List.getLast?_reverse] at hc
    cases hd : cs.reverse.dropWhile p with
    | nil =>
      rw [hd] at hc
      cases hc
    | cons b ds =>
      have hb := List.head_dropWhile_not p (l := cs.reverse) (by rw [hd]; exact List.cons_ne_nil _ _)
      simp only [hd, List.head_cons] at hb
      rw [hd, List.head?_cons, Option.some.injEq] at hc
      rw [← hc, hb]

/-- What is kept without the line breaks at its end, when they stand behind everything that is dropped. -/
theorem dropEndWhile_keepFrom {p : Char → Bool} {front breaks : List Char} {D : Nat → Bool} (hn : front ≠ [])
    (hbreaks : ∀ c ∈ breaks, p c = true) (hlast : ∀ c, front.getLast? = some c → p c = false)
    (hD : ∀ i, front.length ≤ i + 1 → D i = false) :
    dropEndWhile p (keepFrom D 0 (front ++ breaks)) =
      keepFrom (fun i => D i || decide (front.length ≤ i)) 0 (front ++ breaks) := by
  have hfront : keepFrom (fun i => D i || decide (front.length ≤ i)) 0 front = keepFrom D 0 front := by
    apply keepFrom_congr
    intro k _ hk
    have hk' : ¬front.length ≤ k := by omega
    simp [hk']
  have hnone : keepFrom (fun i => D i || decide (front.length ≤ i)) (0 + front.length) breaks = [] := by
    apply keepFrom_none
    intro k hk _
    simp only [Bool.or_eq_true, decide_eq_true_eq]
    omega
  have hall : keepFrom D (0 + front.length) breaks = breaks := by
    apply keepFrom_all
    intro k hk _
    exact hD k (by omega)
  have hkept : ∀ c, (keepFrom D 0 front).getLast? = some c → p c = false := by
    intro c hc
    obtain ⟨init, x, rfl⟩ : ∃ init x, front = init ++ [x] :=
      ⟨front.dropLast, front.getLast hn, (List.dropLast_concat_getLast hn).symm⟩
    have hx : keepFrom D (0 + init.length) [x] = [x] := by
      apply keepFrom_all
      intro k hk _
      apply hD
      rw [List.length_append, List.length_singleton]
      omega
    rw [keepFrom_append, hx, List.getLast?_concat] at hc
    exact hlast c (List.getLast?_concat.trans hc)
  rw [keepFrom_append, keepFrom_append, hfront, hnone, hall, List.append_nil]
  exact dropEndWhile_append hbreaks hkept

/-- Whether a character goes with the spans depends only on what is dropped up to it. -/
theorem GoesWith.congr {cs : List Char} {spans : List Span} {D E : Nat → Bool} {i : Nat} (h : GoesWith cs spans D i)
    (hE : ∀ k ≤ i, E k = D k) : GoesWith cs spans E i := by
  rcases h with hcov | hlead | ⟨s, hm, his, hbetween, hb | ⟨hbreak, l, hl, hstart, hall⟩⟩
  · exact .inl hcov
  · exact .inr (.inl hlead)
  · exact .inr (.inr ⟨s, hm, his, hbetween, .inl hb⟩)
  · refine .inr (.inr ⟨s, hm, his, hbetween, .inr ⟨hbreak, l, hl, ?_, fun k hk hki => (hE k hki).trans (hall k hk hki)⟩⟩)
    exact hstart.imp_right fun h => ⟨h.1, (hE _ (by omega)).trans h.2⟩

theorem Drops.dropEndWhile {cs : List Char} {spans : List Span} {D : Nat → Bool} (h : Drops cs spans D) {q : Nat}
    {c : Char} (hq : cs[q]? = some c) (hc : isBlank c = false) (hle : ∀ s ∈ spans, s.stop ≤ q)
    (hlt : ∀ s ∈ spans, s.start < s.stop) :
    ∃ E, Text.dropEndWhile (· == '\n') (keepFrom D 0 cs) = keepFrom E 0 cs ∧ (∀ i, D i = true → E i = true) ∧
      ∀ i, E i = true → GoesWith cs spans E i ∨ ∀ k, i ≤ k → k < cs.length → cs[k]? = some '\n' := by
  obtain ⟨breaks, hsplit, hbreaks, hlast⟩ := dropEndWhile_split (· == '\n') cs
  generalize Text.dropEndWhile (· == '\n') cs = front at hsplit hlast
  have hbreak {k : Nat} (hk : front.length ≤ k) (hlength : k < cs.length) : cs[k]? = some '\n' := by
    rw [hsplit, List.length_append] at hlength
    have hk' : k - front.length < breaks.length := by omega
    rw [hsplit, List.getElem?_append_right hk, List.getElem?_eq_getElem hk']
    exact congrArg some (beq_iff_eq.1 (hbreaks _ (List.getElem_mem hk')))
  have hqfront : q < front.length := by
    by_contra hn
    have := hbreak (Nat.le_of_not_lt hn) (List.getElem?_eq_some_iff.1 hq).1
    rw [hq, Option.some.injEq] at this
    rw [this] at hc
    cases hc
  have hdropped : ∀ i, D i = true → i < q := fun i hi => h.lt_of_behind hq hc hle hlt hi
  have hkept : ∀ i, front.length ≤ i + 1 → D i = false := by
    intro i hi
    rw [Bool.eq_false_iff]
    intro hd
    have := hdropped i hd
    omega
  refine ⟨fun i => D i || decide (front.length ≤ i), ?_, fun i hi => by simp [hi], fun i hi => ?_⟩
  · have hn : front ≠ [] := List.ne_nil_of_length_pos (by omega)
    rw [hsplit]
    exact dropEndWhile_keepFrom hn hbreaks hlast hkept
  · by_cases hd : D i = true
    · refine .inl ((h.reason i hd).congr fun k hk => ?_)
      have := hdropped i hd
      have hk' : ¬front.length ≤ k := by omega
      simp [hk']
    · have hge : front.length ≤ i := by simpa [hd] using hi
      exact .inr fun k hk hlength => hbreak (Nat.le_trans hge hk) hlength

end TestHooks.Expansion
