import TestHooks.Proofs.Headers

/-!
# Reading by position

A cursor reads a list of tokens by position. It looks ahead, takes tokens one at a time and repeats itself, and nothing
about it says that a token it asks for is there, that a bracket has a partner, or that a loop moves on: where that fails,
the cursor breaks down. A loop breaks down as soon as one of its turns neither moves on nor leaves, so a cursor that
never breaks down has no idle turn in any of its loops, and all of them end.

Readers of suffixes cannot break down. A cursor follows a reader (`Cursor.FollowsBy`) if it ends as the reader does:
with the same fault, or with a value related to the one that was read, at the position of the rest.
-/

namespace TestHooks.Swift

open TestHooks.Reader Reader

variable {α β γ δ σ : Type}

/-- How reading by position can fail other than by a fault of the text. -/
inductive Breakdown
  | missingToken
  | unknownBracket
  /-- A list of members is given nothing to append. -/
  | missingMember
  /-- A turn of a loop neither moves on nor leaves the loop. -/
  | standstill
  /-- Declarations are nested more deeply than allowed. -/
  | nestedTooDeep
  deriving DecidableEq, Repr

inductive Ending (α : Type)
  | done (x : α) (position : Nat)
  | fault (f : Fault)
  | breakdown (b : Breakdown)
  deriving Repr

def Ending.bind : Ending α → (α → Nat → Ending β) → Ending β
  | .done x position, f => f x position
  | .fault f, _ => .fault f
  | .breakdown b, _ => .breakdown b

/-- A program that is run on all the tokens of a text, from a position. -/
structure Cursor (α : Type) where
  run : List Token → Nat → Ending α

/-- What a turn of a loop decides. -/
inductive Turn (σ α : Type)
  | again (s : σ)
  | leave (x : α)

namespace Cursor

instance : Monad Cursor where
  pure x := ⟨fun _ position => .done x position⟩
  bind c f := ⟨fun tokens position => (c.run tokens position).bind fun x after => (f x).run tokens after⟩

/-! ### Single steps -/

def raise (f : Fault) : Cursor α := ⟨fun _ _ => .fault f⟩

def breakDown (b : Breakdown) : Cursor α := ⟨fun _ _ => .breakdown b⟩

/-- The number of tokens taken so far. -/
def here : Cursor Nat := ⟨fun _ position => .done position position⟩

def atEnd : Cursor Bool := ⟨fun tokens position => .done (decide (tokens.length ≤ position)) position⟩

/-- The token that stands `ahead` places further on, if there is one. -/
def peek (ahead : Nat) : Cursor (Option Token) := ⟨fun tokens position => .done tokens[position + ahead]? position⟩

def nextIs (test : Token → Bool) (ahead : Nat) : Cursor Bool := do
  let next ← peek ahead
  pure (next.any test)

/-- A token that has to be there. -/
def demand : Option Token → Cursor Token
  | some t => pure t
  | none => breakDown .missingToken

def current : Cursor Token := do demand (← peek 0)

/-- Looks whether the text has a last token, which it has to have. -/
def lastToken : Cursor Token := do
  let last ← (⟨fun tokens position => .done tokens.getLast? position⟩ : Cursor (Option Token))
  demand last

/-- Takes the next token. -/
def consume : Cursor Token where
  run tokens position :=
    match tokens[position]? with
    | some t => .done t (position + 1)
    | none => .fault ⟨.unexpectedEnd, .lastToken⟩

/-- Takes one token of a kind. -/
def consumeKind (kind : TokenKind) : Cursor Token where
  run tokens position :=
    match tokens[position]? with
    | some t => if t.kind = kind then .done t (position + 1) else .fault (t.fault (.expectedKind kind t.text))
    | none => .fault ⟨.unexpectedEnd, .lastToken⟩

/-- The tokens from a former position up to here, of which there has to be one. -/
def tokensSince (start : Nat) : Cursor (List Token) where
  run tokens position :=
    match (tokens.take position).drop start with
    | [] => .breakdown .missingToken
    | t :: ts => .done (t :: ts) position

def textSince (start : Nat) : Cursor String := do
  let taken ← tokensSince start
  pure (phrase taken)

/-- Runs `c` if the next token satisfies `test`. -/
def ifNext (test : Token → Bool) (c : Cursor α) : Cursor (Option α) := do
  if ← nextIs test 0 then
    let x ← c
    pure (some x)
  else pure none

/-! ### Loops -/

/-- Repeats `body` until it leaves. A turn with state `s` looks `ahead s` places further than its position; it breaks
down unless the next turn looks further still, at most at the end. -/
def loopRun (ahead : σ → Nat) (body : σ → Cursor (Turn σ α)) (s : σ) (tokens : List Token) (position : Nat) :
    Ending α :=
  match (body s).run tokens position with
  | .done (.leave x) after => .done x after
  | .done (.again s') after =>
    if position + ahead s < after + ahead s' ∧ after + ahead s' ≤ tokens.length then
      loopRun ahead body s' tokens after
    else .breakdown .standstill
  | .fault f => .fault f
  | .breakdown b => .breakdown b
termination_by tokens.length - (position + ahead s)

/-- A loop every turn of which takes a token, leaves or fails. -/
def loop (body : σ → Cursor (Turn σ α)) (s : σ) : Cursor α := ⟨loopRun (fun _ => 0) body s⟩

/-- A loop that looks ahead without taking tokens. Its state tells how far. -/
def lookLoop (body : Nat → Cursor (Turn Nat α)) (ahead : Nat) : Cursor α := ⟨loopRun id body ahead⟩

def whileTurn (test : Token → Bool) (c : Cursor α) (found : List α) : Cursor (Turn (List α) (List α)) := do
  if ← nextIs test 0 then
    let x ← c
    pure (.again (found ++ [x]))
  else pure (.leave found)

/-- Repeats `c` while the next token satisfies `test`. -/
def repeatWhile (test : Token → Bool) (c : Cursor α) : Cursor (List α) := loop (whileTurn test c) []

/-- Takes tokens while they satisfy `test`. -/
def consumeWhile (test : Token → Bool) : Cursor Unit := do
  let _ ← repeatWhile test consume
  pure ()

def untilTurn (test : Token → Bool) (c : Cursor α) (found : List α) : Cursor (Turn (List α) (List α)) := do
  if ← nextIs test 0 then pure (.leave found)
  else
    let x ← c
    pure (.again (found ++ [x]))

/-- Repeats `c` until the next token satisfies `test`. -/
def repeatUntil (test : Token → Bool) (c : Cursor α) : Cursor (List α) := loop (untilTurn test c) []

def commaTurn (c : Cursor α) (found : List α) : Cursor (Turn (List α) (List α)) := do
  let x ← c
  if ← nextIs (·.kind == .comma) 0 then
    let _ ← consume
    pure (.again (found ++ [x]))
  else pure (.leave (found ++ [x]))

/-- Runs `c`, and again after each comma. -/
def separatedByCommas (c : Cursor α) : Cursor (List α) := loop (commaTurn c) []

/-! ### Running single steps -/

section Run

variable {tokens : List Token} {position : Nat} {t : Token}

@[simp] theorem bind_done (x : α) (f : α → Nat → Ending β) : (Ending.done x position).bind f = f x position := rfl

@[simp] theorem bind_fault (fault : Fault) (f : α → Nat → Ending β) : (Ending.fault fault).bind f = .fault fault := rfl

theorem bind_assoc (e : Ending α) (f : α → Nat → Ending β) (g : β → Nat → Ending γ) :
    (e.bind f).bind g = e.bind fun x after => (f x after).bind g := by
  cases e <;> rfl

theorem run_bind (c : Cursor α) (f : α → Cursor β) :
    (c >>= f).run tokens position = (c.run tokens position).bind fun x after => (f x).run tokens after := rfl

@[simp] theorem run_pure (x : α) : (pure x : Cursor α).run tokens position = .done x position := rfl

@[simp] theorem run_raise (fault : Fault) : (raise fault : Cursor α).run tokens position = .fault fault := rfl

@[simp] theorem run_here : here.run tokens position = .done position position := rfl

@[simp] theorem run_peek (ahead : Nat) : (peek ahead).run tokens position = .done tokens[position + ahead]? position :=
  rfl

@[simp] theorem run_nextIs (test : Token → Bool) (ahead : Nat) :
    (nextIs test ahead).run tokens position = .done (tokens[position + ahead]?.any test) position := rfl

theorem run_consume (h : tokens[position]? = some t) : consume.run tokens position = .done t (position + 1) := by
  simp only [consume, h]

theorem run_consumeKind {kind : TokenKind} (h : tokens[position]? = some t) (hk : t.kind = kind) :
    (consumeKind kind).run tokens position = .done t (position + 1) := by
  simp only [consumeKind, h, if_pos hk]

theorem run_current (h : tokens[position]? = some t) : current.run tokens position = .done t position := by
  change (demand tokens[position + 0]?).run tokens position = _
  rw [Nat.add_zero, h]
  rfl

theorem drop_of_getElem? (h : tokens[position]? = some t) :
    position < tokens.length ∧ tokens.drop position = t :: tokens.drop (position + 1) := by
  obtain ⟨hp, rfl⟩ := List.getElem?_eq_some_iff.1 h
  exact ⟨hp, List.drop_eq_getElem_cons hp⟩

theorem ne_nil_of_getElem? (h : tokens[position]? = some t) : tokens ≠ [] :=
  List.ne_nil_of_mem (List.mem_of_getElem? h)

theorem run_atEnd_of_some (h : tokens[position]? = some t) : atEnd.run tokens position = .done false position := by
  have := (drop_of_getElem? h).1
  simp only [atEnd, Nat.not_le.2 this, decide_false]

theorem run_atEnd_of_none (h : tokens[position]? = none) : atEnd.run tokens position = .done true position := by
  simp only [atEnd, List.getElem?_eq_none_iff.1 h, decide_true]

theorem getElem?_of_drop {rest : List Token} (h : tokens.drop position = t :: rest) :
    tokens[position]? = some t ∧ rest = tokens.drop (position + 1) := by
  have hg : tokens[position]? = some t := by
    have := congrArg (·[0]?) h
    simpa [List.getElem?_drop] using this
  refine ⟨hg, ?_⟩
  rw [(drop_of_getElem? hg).2] at h
  cases h
  rfl

/-- The tokens are at their end, or there is one at the position. -/
theorem position_cases (tokens : List Token) (position : Nat) :
    (tokens[position]? = none ∧ tokens.drop position = []) ∨ ∃ t, tokens[position]? = some t ∧
      position + 1 ≤ tokens.length ∧ tokens.drop position = t :: tokens.drop (position + 1) := by
  cases hg : tokens[position]? with
  | none => exact .inl ⟨rfl, List.drop_eq_nil_iff.2 (List.getElem?_eq_none_iff.1 hg)⟩
  | some t => exact .inr ⟨t, rfl, drop_of_getElem? hg⟩

/-- The tokens between two positions are those by which the rests differ. -/
theorem run_tokensSince {start : Nat} {taken : List Token} (hp : position ≤ tokens.length)
    (h : tokens.drop start = taken ++ tokens.drop position) (hn : taken ≠ []) :
    (tokensSince start).run tokens position = .done taken position := by
  have hl : tokens.length - start = taken.length + (tokens.length - position) := by
    simpa using congrArg List.length h
  have hlt : 0 < taken.length := List.length_pos_iff.2 hn
  have ht : (tokens.take position).drop start = taken := by
    rw [List.drop_take, h, List.take_append_of_le_length (by omega), List.take_of_length_le (by omega)]
  obtain ⟨u, us, rfl⟩ := List.exists_cons_of_ne_nil hn
  simp only [tokensSince, ht]

theorem run_textSince {start : Nat} {taken : List Token} (hp : position ≤ tokens.length)
    (h : tokens.drop start = taken ++ tokens.drop position) (hn : taken ≠ []) :
    (textSince start).run tokens position = .done (phrase taken) position := by
  rw [textSince, run_bind, run_tokensSince hp h hn]
  rfl

end Run

/-! ### Running loops -/

/-- What a loop does after a turn that has begun at `position`. -/
def afterTurn (body : σ → Cursor (Turn σ α)) (tokens : List Token) (position : Nat) : Turn σ α → Nat → Ending α
  | .leave x, after => .done x after
  | .again s, after =>
    if position < after ∧ after ≤ tokens.length then (loop body s).run tokens after else .breakdown .standstill

section Loops

variable {tokens : List Token} {position after : Nat} {body : σ → Cursor (Turn σ α)} {s : σ}

theorem run_loop :
    (loop body s).run tokens position = ((body s).run tokens position).bind (afterTurn body tokens position) := by
  change loopRun _ body s tokens position = _
  rw [loopRun]
  cases (body s).run tokens position with
  | done turn after => cases turn <;> rfl
  | fault f => rfl
  | breakdown b => rfl

@[simp] theorem afterTurn_leave (x : α) : afterTurn body tokens position (.leave x) after = .done x after := rfl

theorem afterTurn_again (hlt : position < after) (hle : after ≤ tokens.length) :
    afterTurn body tokens position (.again s) after = (loop body s).run tokens after :=
  if_pos ⟨hlt, hle⟩

theorem run_lookLoop_leave {body : Nat → Cursor (Turn Nat α)} {ahead : Nat} {x : α}
    (h : (body ahead).run tokens position = .done (.leave x) after) :
    (lookLoop body ahead).run tokens position = .done x after := by
  change loopRun _ body ahead tokens position = _
  rw [loopRun, h]

theorem run_lookLoop_again {body : Nat → Cursor (Turn Nat α)} {ahead ahead' : Nat}
    (h : (body ahead).run tokens position = .done (.again ahead') after) (hlt : position + ahead < after + ahead')
    (hle : after + ahead' ≤ tokens.length) :
    (lookLoop body ahead).run tokens position = (lookLoop body ahead').run tokens after := by
  change loopRun _ body ahead tokens position = _
  rw [loopRun, h]
  exact if_pos ⟨hlt, hle⟩

end Loops

/-! ### Following readers -/

/-- An ending of reading by position agrees with a result of reading a suffix: it is the same fault, or a value
related to the one that was read, at the position of the rest. -/
inductive Agrees (tokens : List Token) (R : α → β → Prop) : Ending α → Except Fault (β × List Token) → Prop
  | done {x : α} {y : β} {position : Nat} {rest : List Token} (hr : R x y) (hp : position ≤ tokens.length)
    (hd : rest = tokens.drop position) : Agrees tokens R (.done x position) (.ok (y, rest))
  | fault (f : Fault) : Agrees tokens R (.fault f) (.error f)

/-- From every position of a text that has tokens the cursor ends as the reader does on those from there on. -/
def FollowsBy (R : α → β → Prop) (c : Cursor α) (p : Reader β) : Prop :=
  ∀ ⦃tokens : List Token⦄ ⦃position : Nat⦄, tokens ≠ [] → position ≤ tokens.length →
    Agrees tokens R (c.run tokens position) (p.run (tokens.drop position))

abbrev Follows (c : Cursor α) (p : Reader α) : Prop := FollowsBy Eq c p

/-- From every position of a token that satisfies `test` the cursor ends as the reader does behind that token. -/
def TakesBy (R : α → β → Prop) (test : Token → Bool) (c : Cursor α) (p : Token → Reader β) : Prop :=
  ∀ ⦃tokens : List Token⦄ ⦃position : Nat⦄ ⦃t : Token⦄, tokens[position]? = some t → test t = true →
    Agrees tokens R (c.run tokens position) ((p t).run (tokens.drop (position + 1)))

abbrev Takes (test : Token → Bool) (c : Cursor α) (p : Token → Reader α) : Prop := TakesBy Eq test c p

section Agrees

variable {tokens : List Token} {position after : Nat} {R : α → β → Prop} {S : γ → δ → Prop}

theorem Agrees.mono {R' : α → β → Prop} {e : Ending α} {r : Except Fault (β × List Token)}
    (h : Agrees tokens R e r) (hR : ∀ x y, R x y → R' x y) : Agrees tokens R' e r := by
  cases h with
  | done hr hp hd => exact .done (hR _ _ hr) hp hd
  | fault f => exact .fault f

theorem Agrees.bind {e : Ending α} {r : Except Fault (β × List Token)} {f : α → Nat → Ending γ}
    {g : β × List Token → Except Fault (δ × List Token)} (h : Agrees tokens R e r)
    (hf : ∀ x y after, R x y → after ≤ tokens.length → r = .ok (y, tokens.drop after) →
      Agrees tokens S (f x after) (g (y, tokens.drop after))) : Agrees tokens S (e.bind f) (r >>= g) := by
  cases h with
  | done hr hp hd =>
    subst hd
    exact hf _ _ _ hr hp rfl
  | fault f => exact .fault f

theorem Agrees.map {R' : α → γ → Prop} {e : Ending α} {r : Except Fault (β × List Token)} (h : Agrees tokens R e r)
    (f : β → γ) (hR : ∀ x y, R x y → R' x (f y)) : Agrees tokens R' e (r >>= fun found => .ok (f found.1, found.2)) := by
  cases h with
  | done hr hp hd => exact .done (hR _ _ hr) hp hd
  | fault f => exact .fault f

theorem Agrees.ended {e : Ending α} {y : β} {rest : List Token} (h : Agrees tokens R e (.ok (y, rest))) :
    ∃ x after, e = .done x after ∧ R x y ∧ after ≤ tokens.length ∧ rest = tokens.drop after := by
  cases h with
  | done hr hp hd => exact ⟨_, _, rfl, hr, hp, hd⟩

theorem Agrees.faulted {e : Ending α} {f : Fault} (h : Agrees tokens R e (.error f)) : e = .fault f := by
  cases h with
  | fault => rfl

/-- A reader leaves a position that is not before the one where it has begun. -/
theorem le_of_run {p : Reader β} {y : β} (hp : position ≤ tokens.length) (ha : after ≤ tokens.length)
    (h : p.run (tokens.drop position) = .ok (y, tokens.drop after)) : position ≤ after := by
  have := p.length_le h
  simp only [List.length_drop] at this
  omega

end Agrees

section Follows

variable {R : α → β → Prop} {S : γ → δ → Prop} {test : Token → Bool}

theorem FollowsBy.mono {R' : α → β → Prop} {c : Cursor α} {p : Reader β} (h : FollowsBy R c p)
    (hR : ∀ x y, R x y → R' x y) : FollowsBy R' c p :=
  fun _ _ hs hp => (h hs hp).mono hR

theorem TakesBy.mono {R' : α → β → Prop} {c : Cursor α} {p : Token → Reader β} (h : TakesBy R test c p)
    (hR : ∀ x y, R x y → R' x y) : TakesBy R' test c p :=
  fun _ _ _ hg ht => (h hg ht).mono hR

theorem follows_pure {x : α} {y : β} (h : R x y) : FollowsBy R (pure x) (pure y) := fun _ _ _ hp => .done h hp rfl

theorem follows_raise (f : Fault) : FollowsBy R (raise f) (fail f) := fun _ _ _ _ => .fault f

theorem FollowsBy.bind {c : Cursor α} {p : Reader β} {f : α → Cursor γ} {g : β → Reader δ} (h : FollowsBy R c p)
    (hf : ∀ x y, R x y → FollowsBy S (f x) (g y)) : FollowsBy S (c >>= f) (p >>= g) := by
  intro tokens position hn hp
  rw [run_bind_eq, run_bind]
  exact (h hn hp).bind fun x y _ hx ha _ => hf x y hx hn ha

theorem Follows.bind {c : Cursor α} {p : Reader α} {f : α → Cursor γ} {g : α → Reader δ} (h : Follows c p)
    (hf : ∀ x, FollowsBy S (f x) (g x)) : FollowsBy S (c >>= f) (p >>= g) :=
  FollowsBy.bind h fun x _ hx => hx ▸ hf x

theorem TakesBy.bind {c : Cursor α} {p : Token → Reader β} {f : α → Cursor γ} {g : Token → β → Reader δ}
    (h : TakesBy R test c p) (hf : ∀ t x y, R x y → FollowsBy S (f x) (g t y)) :
    TakesBy S test (c >>= f) fun t => p t >>= g t := by
  intro tokens position t hg ht
  rw [run_bind_eq, run_bind]
  exact (h hg ht).bind fun x y _ hx ha _ => hf t x y hx (ne_nil_of_getElem? hg) ha

/-- What is read may be changed afterwards. -/
theorem TakesBy.read {c : Cursor α} {p : Token → Reader β} {T : α → δ → Prop} (h : TakesBy R test c p) (f : β → δ)
    (hT : ∀ x y, R x y → T x (f y)) : TakesBy T test c fun t => p t >>= fun y => pure (f y) := by
  intro tokens position t hg ht
  rw [run_bind_eq]
  exact (h hg ht).map f hT

theorem takes_consume {f : Token → Cursor α} {p : Token → Reader β} (h : ∀ t, FollowsBy R (f t) (p t)) :
    TakesBy R test (consume >>= f) p := by
  intro tokens position t hg _
  rw [run_bind, run_consume hg]
  exact h t (ne_nil_of_getElem? hg) (drop_of_getElem? hg).1

theorem follows_consumeKind (kind : TokenKind) : Follows (consumeKind kind) (token kind) := by
  intro tokens position _ hp
  rcases position_cases tokens position with ⟨hg, hd⟩ | ⟨t, hg, hl, hd⟩
  · simp only [consumeKind, hg, hd, token]
    exact .fault _
  · simp only [consumeKind, hg, hd, token]
    split
    · exact .done rfl hl rfl
    · exact .fault _

theorem follows_ifNext {c : Cursor α} {p : Token → Reader β} (h : TakesBy R test c p) :
    FollowsBy (Option.Rel R) (ifNext test c) (optionally test p) := by
  intro tokens position _ hp
  rw [ifNext, run_bind, run_nextIs, Nat.add_zero, bind_done]
  rcases position_cases tokens position with ⟨hg, hd⟩ | ⟨t, hg, hl, hd⟩
  · rw [hg, hd]
    exact .done .none hp hd.symm
  · rw [hg, hd, Option.any_some, optionally_cons]
    split
    · next ht => exact (h hg ht).bind fun x y _ hx ha _ => .done (.some hx) ha rfl
    · exact .done .none hp hd.symm

theorem ifNext_eq {c : Cursor α} {p : Token → Reader α} (h : Takes test c p) :
    Follows (ifNext test c) (optionally test p) := by
  refine (follows_ifNext h).mono fun x y hx => ?_
  cases hx with
  | some hx => rw [hx]
  | none => rfl

theorem takes_token (test : Token → Bool) : Takes test consume pure := by
  intro tokens position t hg _
  rw [run_consume hg]
  exact .done rfl (drop_of_getElem? hg).1 rfl

/-! ### Following loops -/

section LoopAgrees

variable {ι : Type} {tokens : List Token} {start : Nat} {body : σ → Cursor (Turn σ α)}

/-- What a loop and the program behind it do agrees with a family of results if that is so for each turn, as long as it
is so behind the turn. -/
theorem loop_agrees_then (state : ι → σ) (k : α → Nat → Ending γ) (R : ι → γ → β → Prop)
    (r : ι → Nat → Except Fault (β × List Token))
    (turn : ∀ i position, start ≤ position → position ≤ tokens.length →
      (∀ j after, position < after → after ≤ tokens.length →
        Agrees tokens (R j) ((afterTurn body tokens position (.again (state j)) after).bind k) (r j after)) →
      Agrees tokens (R i)
        (((body (state i)).run tokens position).bind fun turn after => (afterTurn body tokens position turn after).bind k)
        (r i position))
    (i : ι) (hp : start ≤ tokens.length) :
    Agrees tokens (R i) (((loop body (state i)).run tokens start).bind k) (r i start) := by
  suffices hall : ∀ n i position, start ≤ position → position ≤ tokens.length → tokens.length - position = n →
      Agrees tokens (R i) (((loop body (state i)).run tokens position).bind k) (r i position) from
    hall _ i start (Nat.le_refl _) hp rfl
  intro n
  induction n using Nat.strongRecOn with
  | ind n ih =>
    intro i position hs hp hn
    rw [run_loop, bind_assoc]
    refine turn i position hs hp fun j after hlt ha => ?_
    rw [afterTurn_again hlt ha]
    exact ih (tokens.length - after) (by omega) j after (by omega) ha rfl

theorem bind_done_eq (e : Ending α) : e.bind .done = e := by
  cases e <;> rfl

theorem loop_agrees (state : ι → σ) (R : ι → α → β → Prop) (r : ι → Nat → Except Fault (β × List Token))
    (turn : ∀ i position, start ≤ position → position ≤ tokens.length →
      (∀ j after, position < after → after ≤ tokens.length →
        Agrees tokens (R j) (afterTurn body tokens position (.again (state j)) after) (r j after)) →
      Agrees tokens (R i) (((body (state i)).run tokens position).bind (afterTurn body tokens position)) (r i position))
    (i : ι) (hp : start ≤ tokens.length) :
    Agrees tokens (R i) ((loop body (state i)).run tokens start) (r i start) := by
  rw [← bind_done_eq ((loop body (state i)).run tokens start)]
  refine loop_agrees_then state .done R r (fun i position hs hp again => ?_) i hp
  simp only [bind_done_eq] at again ⊢
  exact turn i position hs hp again

end LoopAgrees

/-- What a loop finds after `found`. -/
def Appended (found xs ys : List α) : Prop := xs = found ++ ys

theorem appended_nil (found : List α) : Appended found found [] := (List.append_nil _).symm

theorem Appended.cons {found xs ys : List α} {x : α} (h : Appended (found ++ [x]) xs ys) :
    Appended found xs (x :: ys) := by
  rw [Appended, h, List.append_assoc, List.singleton_append]

variable {tokens : List Token} {position : Nat}

theorem loop_whileTurn {c : Cursor α} {p : Token → Reader α} (h : Takes test c p) (found : List α)
    (hp : position ≤ tokens.length) :
    Agrees tokens (Appended found) ((loop (whileTurn test c) found).run tokens position)
      (whileNextRun test p (tokens.drop position)) := by
  refine loop_agrees (fun found => found) Appended (fun _ after => whileNextRun test p (tokens.drop after))
    (fun found position _ hp again => ?_) found hp
  rw [whileTurn, run_bind, run_nextIs, Nat.add_zero, bind_done]
  rcases position_cases tokens position with ⟨hg, hd⟩ | ⟨t, hg, hl, hd⟩
  · rw [hg, hd, whileNextRun]
    exact .done (appended_nil found) hp hd.symm
  · rw [hg, hd, Option.any_some, whileNextRun_cons]
    split
    · next ht =>
      rw [run_bind, bind_assoc]
      refine (h hg ht).bind fun x y after hx ha hr => ?_
      subst hx
      exact (again _ after (le_of_run hl ha hr) ha).map _ fun _ _ => Appended.cons
    · exact .done (appended_nil found) hp hd.symm

theorem follows_repeatWhile {c : Cursor α} {p : Token → Reader α} (h : Takes test c p) :
    Follows (repeatWhile test c) (whileNext test p) :=
  fun _ _ _ hp => (loop_whileTurn h [] hp).mono fun _ _ hx => hx

theorem whileNext_pure (test : Token → Bool) (ts : List Token) :
    (whileNext test pure : Reader (List Token)).run ts = .ok (ts.takeWhile test, ts.dropWhile test) := by
  change whileNextRun test _ ts = _
  induction ts with
  | nil => rw [whileNextRun]; rfl
  | cons t ts ih =>
    rw [whileNextRun_cons, List.takeWhile_cons, List.dropWhile_cons]
    split
    · change whileNextRun test _ ts >>= _ = _
      rw [ih]
      rfl
    · rfl

theorem follows_consumeWhile (test : Token → Bool) : Follows (consumeWhile test) (skipWhile test) := by
  intro tokens position hs hp
  have h := follows_repeatWhile (takes_token test) hs hp
  rw [whileNext_pure] at h
  obtain ⟨_, after, hrun, -, ha, hd⟩ := h.ended
  rw [consumeWhile, run_bind, hrun]
  exact .done rfl ha hd

theorem takes_consumeWhile {first : Token → Bool} (h : ∀ t, first t = true → test t = true) :
    Takes first (consumeWhile test) fun _ => skipWhile test := by
  intro tokens position t hg ht
  obtain ⟨hlt, hd⟩ := drop_of_getElem? hg
  have hfollows := follows_consumeWhile test (ne_nil_of_getElem? hg) (Nat.le_of_lt hlt)
  simp only [skipWhile] at hfollows ⊢
  rwa [hd, List.dropWhile_cons, if_pos (h t ht)] at hfollows

theorem loop_untilTurn {c : Cursor α} {p : Reader α} (hs : Strict p) (h : Follows c p) (found : List α)
    (ht : tokens ≠ []) (hp : position ≤ tokens.length) :
    Agrees tokens (Appended found) ((loop (untilTurn test c) found).run tokens position)
      (untilNextRun test p hs (tokens.drop position)) := by
  refine loop_agrees (fun found => found) Appended (fun _ after => untilNextRun test p hs (tokens.drop after))
    (fun found position _ hp again => ?_) found hp
  rw [untilTurn, run_bind, run_nextIs, Nat.add_zero, bind_done, untilNextRun_eq, List.head?_drop]
  split
  · exact .done (appended_nil found) hp rfl
  · rw [run_bind, bind_assoc]
    refine (h ht hp).bind fun x y after hx ha hr => ?_
    subst hx
    have hlt := hs hr
    simp only [List.length_drop] at hlt
    exact (again _ after (by omega) ha).map _ fun _ _ => Appended.cons

theorem follows_repeatUntil {c : Cursor α} {p : Reader α} (hs : Strict p) (h : Follows c p) :
    Follows (repeatUntil test c) (untilNext test p hs) :=
  fun _ _ ht hp => (loop_untilTurn hs h [] ht hp).mono fun _ _ hx => hx

theorem byCommas_run (p : Reader α) (ts : List Token) :
    (byCommas p).run ts = p.run ts >>= fun first =>
      whileNextRun (·.kind == .comma) (fun _ => p) first.2 >>= fun others => .ok (first.1 :: others.1, others.2) := by
  rw [byCommas, run_bind_eq]
  cases p.run ts with
  | error fault => rfl
  | ok first =>
    change ((whileNext _ _ >>= _ : Reader (List α)).run first.2) = _ >>= _
    rw [run_bind_eq]
    rfl

theorem loop_commaTurn {c : Cursor α} {p : Reader α} (h : Follows c p) (found : List α) (ht : tokens ≠ [])
    (hp : position ≤ tokens.length) :
    Agrees tokens (Appended found) ((loop (commaTurn c) found).run tokens position)
      ((byCommas p).run (tokens.drop position)) := by
  refine loop_agrees (fun found => found) Appended (fun _ after => (byCommas p).run (tokens.drop after))
    (fun found position _ hp again => ?_) found hp
  rw [commaTurn, run_bind, bind_assoc, byCommas_run]
  refine (h ht hp).bind fun x y after hx ha hr => ?_
  subst hx
  have hle := le_of_run hp ha hr
  rw [run_bind, run_nextIs, Nat.add_zero, bind_done]
  rcases position_cases tokens after with ⟨hg, hd⟩ | ⟨t, hg, hl, hd⟩
  · rw [hg, hd, whileNextRun]
    exact .done (appended_nil _).cons ha hd.symm
  · rw [hg, hd, Option.any_some, whileNextRun_cons]
    split
    · rw [run_bind, run_consume hg, bind_done, run_pure, bind_done, ← byCommas_run]
      exact (again _ (after + 1) (by omega) hl).map _ fun _ _ => Appended.cons
    · exact .done (appended_nil _).cons ha hd.symm

theorem follows_separatedByCommas {c : Cursor α} {p : Reader α} (h : Follows c p) :
    Follows (separatedByCommas c) (byCommas p) :=
  fun _ _ ht hp => (loop_commaTurn h [] ht hp).mono fun _ _ hx => hx

end Follows

end Cursor

end TestHooks.Swift
