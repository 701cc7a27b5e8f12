/-!
# Readers

A reader takes a value off the front of a list of symbols, or finds a fault. What it leaves is always a suffix of
what it was given (`Reader.suffix`), and a reader is strict if it never leaves everything (`Reader.Strict`).
Loops over strict readers therefore end.
-/

namespace TestHooks

structure Reader (τ ε α : Type) where
  run : List τ → Except ε (α × List τ)
  suffix : ∀ {ts : List τ} {x : α} {rest : List τ}, run ts = .ok (x, rest) → rest <:+ ts

namespace Reader

variable {τ ε α β : Type}

/-- The reader leaves fewer symbols than it is given. -/
def Strict (p : Reader τ ε α) : Prop :=
  ∀ ⦃ts : List τ⦄ ⦃x : α⦄ ⦃rest : List τ⦄, p.run ts = .ok (x, rest) → rest.length < ts.length

theorem length_le (p : Reader τ ε α) {ts rest : List τ} {x : α} (h : p.run ts = .ok (x, rest)) :
    rest.length ≤ ts.length :=
  (p.suffix h).length_le

/-! ### Sequencing -/

protected def pure (x : α) : Reader τ ε α where
  run ts := .ok (x, ts)
  suffix h := by
    cases h
    exact List.suffix_refl _

protected def bind (p : Reader τ ε α) (f : α → Reader τ ε β) : Reader τ ε β where
  run ts :=
    match p.run ts with
    | .ok (x, rest) => (f x).run rest
    | .error fault => .error fault
  suffix h := by
    split at h
    · next hp => exact ((f _).suffix h).trans (p.suffix hp)
    · simp at h

instance : Monad (Reader τ ε) where
  pure := Reader.pure
  bind := Reader.bind

theorem run_pure (x : α) (ts : List τ) : (pure x : Reader τ ε α).run ts = .ok (x, ts) := rfl

theorem run_bind (p : Reader τ ε α) (f : α → Reader τ ε β) (ts : List τ) :
    (p >>= f).run ts =
      match p.run ts with
      | .ok (x, rest) => (f x).run rest
      | .error fault => .error fault := rfl

theorem Strict.bind {p : Reader τ ε α} (hp : Strict p) (f : α → Reader τ ε β) : Strict (p >>= f) := by
  intro ts x rest h
  rw [run_bind] at h
  split at h
  · next hr => exact Nat.lt_of_le_of_lt ((f _).length_le h) (hp hr)
  · simp at h

theorem Strict.of_bind (p : Reader τ ε α) {f : α → Reader τ ε β} (hf : ∀ x, Strict (f x)) : Strict (p >>= f) := by
  intro ts x rest h
  rw [run_bind] at h
  split at h
  · next hr => exact Nat.lt_of_lt_of_le (hf _ h) (p.length_le hr)
  · simp at h

/-! ### Single steps -/

def fail (fault : ε) : Reader τ ε α where
  run _ := .error fault
  suffix h := by simp at h

/-- Looks at what follows and takes nothing. -/
def look (f : List τ → α) : Reader τ ε α where
  run ts := .ok (f ts, ts)
  suffix h := by
    cases h
    exact List.suffix_refl _

/-- Goes on with `p` after the next symbol if that satisfies `test`, and takes nothing otherwise. -/
def optionally (test : τ → Bool) (p : τ → Reader τ ε α) : Reader τ ε (Option α) where
  run
    | [] => .ok (none, [])
    | t :: ts =>
      if test t then
        match (p t).run ts with
        | .ok (x, rest) => .ok (some x, rest)
        | .error fault => .error fault
      else .ok (none, t :: ts)
  suffix {ts x rest} h := by
    cases ts with
    | nil =>
      cases h
      exact List.suffix_refl _
    | cons t ts =>
      simp only at h
      split at h
      · split at h
        · next hp =>
          cases h
          exact ((p t).suffix hp).trans (List.suffix_cons _ _)
        · simp at h
      · cases h
        exact List.suffix_refl _

/-- Splits the list, takes the first part and leaves the second. -/
def split (f : List τ → List τ × List τ) (h : ∀ ts, (f ts).1 ++ (f ts).2 = ts) :
    Reader τ ε (List τ) where
  run ts := .ok (f ts)
  suffix {ts x rest} hr := by
    have hs : f ts = (x, rest) := Except.ok.inj hr
    exact ⟨x, by simpa [hs] using h ts⟩

/-- Takes the value that `f` finds, with the number of symbols that it says. -/
def measured (fault : ε) (f : List τ → Option (α × Nat)) : Reader τ ε α where
  run ts :=
    match f ts with
    | some (x, n) => .ok (x, ts.drop n)
    | none => .error fault
  suffix h := by
    split at h
    · cases h
      exact List.drop_suffix _ _
    · simp at h

/-- Drops symbols while they satisfy `test`. -/
def skipWhile (test : τ → Bool) : Reader τ ε Unit where
  run ts := .ok ((), ts.dropWhile test)
  suffix h := by
    cases h
    exact List.dropWhile_suffix _

/-! ### Loops -/

/-- Reads with `p` after each next symbol that satisfies `test`. -/
def whileNextRun (test : τ → Bool) (p : τ → Reader τ ε α) (ts : List τ) :
    Except ε (List α × List τ) :=
  match ts with
  | [] => .ok ([], [])
  | t :: rest =>
    if test t then
      match _h : (p t).run rest with
      | .ok (x, after) =>
        match whileNextRun test p after with
        | .ok (xs, left) => .ok (x :: xs, left)
        | .error fault => .error fault
      | .error fault => .error fault
    else .ok ([], t :: rest)
termination_by ts.length
decreasing_by
  have := (p t).length_le ‹_›
  simp only [List.length_cons]
  omega

theorem suffix_whileNextRun {test : τ → Bool} {p : τ → Reader τ ε α} {ts : List τ} {xs : List α}
    {rest : List τ} (h : whileNextRun test p ts = .ok (xs, rest)) : rest <:+ ts := by
  fun_induction whileNextRun test p ts generalizing xs rest with
  | case1 =>
    cases h
    exact List.suffix_refl _
  | case2 t ts ht x after hp xs' left hw ih =>
    cases h
    exact ((ih hw).trans ((p t).suffix hp)).trans (List.suffix_cons _ _)
  | case3 => simp at h
  | case4 => simp at h
  | case5 =>
    cases h
    exact List.suffix_refl _

def whileNext (test : τ → Bool) (p : τ → Reader τ ε α) : Reader τ ε (List α) where
  run := whileNextRun test p
  suffix h := suffix_whileNextRun h

/-- Reads with `p` until the next symbol satisfies `test`. -/
def untilNextRun (test : τ → Bool) (p : Reader τ ε α) (hp : Strict p) (ts : List τ) :
    Except ε (List α × List τ) :=
  if ts.head?.any test then .ok ([], ts)
  else
    match _h : p.run ts with
    | .ok (x, after) =>
      match untilNextRun test p hp after with
      | .ok (xs, left) => .ok (x :: xs, left)
      | .error fault => .error fault
    | .error fault => .error fault
termination_by ts.length
decreasing_by exact hp ‹_›

theorem suffix_untilNextRun {test : τ → Bool} {p : Reader τ ε α} {hp : Strict p} {ts : List τ} {xs : List α}
    {rest : List τ} (h : untilNextRun test p hp ts = .ok (xs, rest)) : rest <:+ ts := by
  fun_induction untilNextRun test p hp ts generalizing xs rest with
  | case1 =>
    cases h
    exact List.suffix_refl _
  | case2 ts _ x after hr xs' left hw ih =>
    cases h
    exact (ih hw).trans (p.suffix hr)
  | case3 => simp at h
  | case4 => simp at h

def untilNext (test : τ → Bool) (p : Reader τ ε α) (hp : Strict p) : Reader τ ε (List α) where
  run := untilNextRun test p hp
  suffix h := suffix_untilNextRun h

end Reader

end TestHooks
