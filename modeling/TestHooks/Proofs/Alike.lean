import Mathlib.Data.List.Forall2
import TestHooks.Proofs.Headers
import TestHooks.Proofs.Lexing

/-!
# Reading without looking at places

Two tokens are alike if they agree in kind, text and line break; if they also agree in whether they touch the token
before them, and if the same or only blanks stand before them, then nothing tells them apart for a reader. Readers find
values that agree in lists of such tokens, or faults with the same cause. The relation between two readings is kept by
each way to put readers together (`Blind.bind`, `blind_optionally`, `blind_whileNext`), so that it is shown reader by
reader.
-/

namespace TestHooks.Swift

open TestHooks.Text

/-! ### Tokens -/

/-- The tokens agree in kind, text and line break. -/
structure Token.Like (t u : Token) : Prop where
  kind : t.kind = u.kind
  text : t.text = u.text
  newline : t.newlineBefore = u.newlineBefore

/-- The tokens agree also in whether they touch the one before, and the same or only blanks stand before them. -/
structure Token.Alike (t u : Token) : Prop extends Token.Like t u where
  attached : t.isAttached = u.isAttached
  gaps : t.gap = u.gap ∨ (∀ c ∈ t.gap.toList, isBlank c = true) ∧ ∀ c ∈ u.gap.toList, isBlank c = true

/-- Tokens that are alike, one by one. Of the first it does not matter what stands before. -/
inductive Alike : List Token → List Token → Prop
  | nil : Alike [] []
  | cons {t u : Token} {ts us : List Token} (ht : t.Like u) (hs : List.Forall₂ Token.Alike ts us) :
    Alike (t :: ts) (u :: us)

theorem Alike.of_forall₂ {ts us : List Token} (h : List.Forall₂ Token.Alike ts us) : Alike ts us := by
  cases h with
  | nil => exact .nil
  | cons ht hs => exact .cons ht.toLike hs

theorem Alike.like {ts us : List Token} (h : Alike ts us) : List.Forall₂ Token.Like ts us := by
  cases h with
  | nil => exact .nil
  | cons ht hs => exact .cons ht (hs.imp fun _ _ h => h.toLike)

theorem Alike.drop {ts us : List Token} (h : Alike ts us) (n : Nat) : Alike (ts.drop n) (us.drop n) := by
  cases n with
  | zero => exact h
  | succ n =>
    cases h with
    | nil => exact .nil
    | cons _ hs => exact .of_forall₂ (List.forall₂_drop n hs)

theorem Alike.take {ts us : List Token} (h : Alike ts us) (n : Nat) : Alike (ts.take n) (us.take n) := by
  cases n with
  | zero => exact .nil
  | succ n =>
    cases h with
    | nil => exact .nil
    | cons ht hs => exact .cons ht (List.forall₂_take n hs)

/-- Lists that are cut at the same place are alike before it and behind it. -/
theorem Alike.cut {ts us taken left taken' left' : List Token} (h : Alike ts us) (ht : taken ++ left = ts)
    (hu : taken' ++ left' = us) (hl : taken.length = taken'.length) : Alike taken taken' ∧ Alike left left' := by
  subst ht hu
  have htake := h.take taken.length
  have hdrop := h.drop taken.length
  rw [List.take_left' rfl, List.take_left' hl.symm] at htake
  rw [List.drop_left' rfl, List.drop_left' hl.symm] at hdrop
  exact ⟨htake, hdrop⟩

/-! ### Phrases -/

theorem collapseFrom_blanks {gap : List Char} (hg : ∀ c ∈ gap, isBlank c = true) (hn : gap ≠ []) (inRun : Bool)
    (cs : List Char) : collapseFrom inRun (gap ++ cs) = collapseFrom inRun (' ' :: cs) := by
  induction gap generalizing inRun with
  | nil => exact absurd rfl hn
  | cons c gap ih =>
    have hc := hg c List.mem_cons_self
    have htrue : collapseFrom true (gap ++ cs) = collapseFrom true cs := by
      cases gap with
      | nil => rfl
      | cons d gap =>
        rw [ih (fun e he => hg e (List.mem_cons_of_mem _ he)) (by simp)]
        simp [collapseFrom, isBlank_space]
    cases inRun <;> simp [collapseFrom, hc, isBlank_space, htrue]

theorem collapseFrom_written {ts us : List Token} (h : List.Forall₂ Token.Alike ts us) (inRun : Bool)
    (cs : List Char) :
    collapseFrom inRun (cs ++ Token.written ts) = collapseFrom inRun (cs ++ Token.written us) := by
  have hcons (inRun : Bool) (c : Char) (cs : List Char) {xs ys : List Char}
      (h : ∀ inRun, collapseFrom inRun (cs ++ xs) = collapseFrom inRun (cs ++ ys)) :
      collapseFrom inRun (c :: cs ++ xs) = collapseFrom inRun (c :: cs ++ ys) := by
    simp only [List.cons_append, collapseFrom, h]
  have hprefix (cs : List Char) {xs ys : List Char} (h : ∀ inRun, collapseFrom inRun xs = collapseFrom inRun ys)
      (inRun : Bool) : collapseFrom inRun (cs ++ xs) = collapseFrom inRun (cs ++ ys) := by
    induction cs generalizing inRun with
    | nil => exact h inRun
    | cons c cs ih => exact hcons inRun c cs ih
  induction h generalizing inRun cs with
  | nil => rfl
  | @cons t u ts us ht hs ih =>
    refine hprefix cs (fun inRun => ?_) inRun
    rw [Token.written_cons, Token.written_cons, ht.text, List.append_assoc, List.append_assoc]
    have hrest := fun inRun => ih inRun u.text.toList
    rcases ht.gaps with hg | ⟨hb, hb'⟩
    · rw [hg]
      exact hprefix u.gap.toList hrest inRun
    have hempty : t.gap = "" ↔ u.gap = "" := by
      rw [← String.isEmpty_iff, ← String.isEmpty_iff]
      exact Bool.eq_iff_iff.1 ht.attached
    by_cases ha : t.gap = ""
    · rw [ha, hempty.1 ha]
      exact hrest inRun
    · have hu : u.gap ≠ "" := fun hu => ha (hempty.2 hu)
      rw [collapseFrom_blanks hb (by simpa using ha), collapseFrom_blanks hb' (by simpa using hu)]
      exact hcons inRun ' ' [] hrest

/-- Tokens that are alike have the same text as a phrase. -/
theorem phrase_alike {ts us : List Token} (h : Alike ts us) : phrase ts = phrase us := by
  cases h with
  | nil => rfl
  | cons ht hs => rw [phrase, phrase, ht.text, collapse, collapse, collapseFrom_written hs]

/-! ### Two readings -/

/-- Both readings find values in the relation and leave tokens that are alike, or both fail for one cause. -/
inductive Same {α β : Type} (R : α → β → Prop) :
    Except Fault (α × List Token) → Except Fault (β × List Token) → Prop
  | ok {x : α} {y : β} {ts us : List Token} (hx : R x y) (hs : Alike ts us) : Same R (.ok (x, ts)) (.ok (y, us))
  | error {f g : Fault} (h : f.cause = g.cause) : Same R (.error f) (.error g)

theorem Same.imp {α β : Type} {R S : α → β → Prop} (h : ∀ x y, R x y → S x y)
    {r : Except Fault (α × List Token)} {r' : Except Fault (β × List Token)} (hr : Same R r r') : Same S r r' := by
  cases hr with
  | ok hx hs => exact .ok (h _ _ hx) hs
  | error hf => exact .error hf

theorem Same.bind {α β γ δ : Type} {R : α → β → Prop} {S : γ → δ → Prop} {r : Except Fault (α × List Token)}
    {r' : Except Fault (β × List Token)} {f : α × List Token → Except Fault (γ × List Token)}
    {g : β × List Token → Except Fault (δ × List Token)} (hr : Same R r r')
    (hf : ∀ x y ts us, r = .ok (x, ts) → r' = .ok (y, us) → R x y → Alike ts us → Same S (f (x, ts)) (g (y, us))) :
    Same S (r >>= f) (r' >>= g) := by
  cases hr with
  | ok hx hs => exact hf _ _ _ _ rfl rfl hx hs
  | error h => exact .error h

namespace Reader

open TestHooks.Reader

variable {α β γ δ : Type}

/-- The readers agree on all lists that are alike. -/
def Blind (R : α → β → Prop) (p : Reader α) (q : Reader β) : Prop :=
  ∀ ⦃ts us : List Token⦄, Alike ts us → Same R (p.run ts) (q.run us)

/-- The readers agree on lists that are alike in their first tokens, too. -/
def BlindInside (R : α → β → Prop) (p : Reader α) (q : Reader β) : Prop :=
  ∀ ⦃ts us : List Token⦄, List.Forall₂ Token.Alike ts us → Same R (p.run ts) (q.run us)

theorem Blind.inside {R : α → β → Prop} {p : Reader α} {q : Reader β} (h : Blind R p q) : BlindInside R p q :=
  fun _ _ hs => h (.of_forall₂ hs)

theorem blind_pure {R : α → β → Prop} {x : α} {y : β} (h : R x y) : Blind R (pure x) (pure y) :=
  fun _ _ hs => .ok h hs

theorem blind_fail {R : α → β → Prop} {f g : Fault} (h : f.cause = g.cause) : Blind R (fail f) (fail g) :=
  fun _ _ _ => .error h

theorem BlindInside.bind {R : α → β → Prop} {S : γ → δ → Prop} {p : Reader α} {q : Reader β} {f : α → Reader γ}
    {g : β → Reader δ} (h : BlindInside R p q) (hf : ∀ x y, R x y → Blind S (f x) (g y)) :
    BlindInside S (p >>= f) (q >>= g) := by
  intro ts us hs
  rw [run_bind_eq, run_bind_eq]
  exact (h hs).bind fun x y _ _ _ _ hx hl => hf x y hx hl

theorem Blind.bind {R : α → β → Prop} {S : γ → δ → Prop} {p : Reader α} {q : Reader β} {f : α → Reader γ}
    {g : β → Reader δ} (h : Blind R p q) (hf : ∀ x y, R x y → Blind S (f x) (g y)) : Blind S (p >>= f) (q >>= g) := by
  intro ts us hs
  rw [run_bind_eq, run_bind_eq]
  exact (h hs).bind fun x y _ _ _ _ hx hl => hf x y hx hl

/-- The test cannot tell alike tokens apart. -/
def BlindTest (test : Token → Bool) : Prop := ∀ ⦃t u : Token⦄, t.Like u → test t = test u

theorem blind_optionally {R : α → β → Prop} {test : Token → Bool} {p : Token → Reader α} {q : Token → Reader β}
    (ht : BlindTest test) (h : ∀ t u, t.Like u → BlindInside R (p t) (q u)) :
    Blind (Option.Rel R) (optionally test p) (optionally test q) := by
  intro ts us hs
  cases hs with
  | nil => exact .ok .none .nil
  | @cons t u ts us htu hs =>
    rw [optionally_cons, optionally_cons, ht htu]
    split
    · exact (h t u htu hs).bind fun x y _ _ _ _ hx hl => .ok (.some hx) hl
    · exact .ok .none (.cons htu hs)

theorem blind_whileNext {R : α → β → Prop} {test : Token → Bool} {p : Token → Reader α} {q : Token → Reader β}
    (ht : BlindTest test) (h : ∀ t u, t.Like u → BlindInside R (p t) (q u)) :
    Blind (List.Forall₂ R) (whileNext test p) (whileNext test q) := by
  intro ts us hs
  change Same _ (whileNextRun test p ts) (whileNextRun test q us)
  induction hn : ts.length using Nat.strongRecOn generalizing ts us with
  | ind n ih =>
    cases hs with
    | nil =>
      rw [whileNextRun, whileNextRun]
      exact .ok .nil .nil
    | @cons t u ts us htu hs =>
      rw [whileNextRun_cons, whileNextRun_cons, ht htu]
      split
      · refine (h t u htu hs).bind fun x y ts' us' hr _ hx hl => ?_
        have hlt := (p t).length_le hr
        rw [List.length_cons] at hn
        exact (ih ts'.length (by omega) hl rfl).bind fun xs ys _ _ _ _ hxs hrest => .ok (.cons hx hxs) hrest
      · exact .ok .nil (.cons htu hs)

theorem blind_untilNext {R : α → β → Prop} {test : Token → Bool} {p : Reader α} {q : Reader β} (hp : Strict p)
    (hq : Strict q) (ht : BlindTest test) (h : Blind R p q) :
    Blind (List.Forall₂ R) (untilNext test p hp) (untilNext test q hq) := by
  intro ts us hs
  change Same _ (untilNextRun test p hp ts) (untilNextRun test q hq us)
  induction hn : ts.length using Nat.strongRecOn generalizing ts us with
  | ind n ih =>
    have hhead : ts.head?.any test = us.head?.any test := by
      cases hs with
      | nil => rfl
      | cons htu _ => exact ht htu
    rw [untilNextRun_eq, untilNextRun_eq, hhead]
    split
    · exact .ok .nil hs
    · refine (h hs).bind fun x y ts' us' hr _ hx hl => ?_
      have hlt := hp hr
      exact (ih ts'.length (by omega) hl rfl).bind fun xs ys _ _ _ _ hxs hrest => .ok (.cons hx hxs) hrest

end Reader

end TestHooks.Swift
