import Mathlib
import TestHooks.Proofs.Headers

/-!
# Braces

A file that is read need not have balanced braces: types, expressions, statements, conditions, requirements and groups
in parentheses or angle brackets are passed over, and what is passed over may leave a brace open or close one too many
(`braces_of_unclosed`). All other braces are matched while reading. So the braces of a file are balanced up to those in
the phrases that are passed over (`braces_of_parse`).
-/

namespace TestHooks.Swift

open TestHooks.Reader Reader

/-! ### Balance -/

/-- What the token adds to the number of open braces. -/
def Token.braceRise (t : Token) : Int :=
  if t.kind = .leftBrace then 1 else if t.kind = .rightBrace then -1 else 0

/-- The number of opening braces less that of closing ones. -/
def braceLevel (ts : List Token) : Int := (ts.map Token.braceRise).sum

/-- No prefix closes more braces than it opens, and all that are opened are closed. -/
structure BraceBalanced (ts : List Token) : Prop where
  prefixes : ∀ n, 0 ≤ braceLevel (ts.take n)
  closed : braceLevel ts = 0

@[simp] theorem braceLevel_nil : braceLevel [] = 0 := rfl

@[simp] theorem braceLevel_cons (t : Token) (ts : List Token) : braceLevel (t :: ts) = t.braceRise + braceLevel ts := by
  simp [braceLevel]

@[simp] theorem braceLevel_append (ts us : List Token) : braceLevel (ts ++ us) = braceLevel ts + braceLevel us := by
  simp [braceLevel]

theorem braceRise_of_leftBrace {t : Token} (h : t.kind = .leftBrace) : t.braceRise = 1 := by
  rw [Token.braceRise, if_pos h]

theorem braceRise_of_rightBrace {t : Token} (h : t.kind = .rightBrace) : t.braceRise = -1 := by
  rw [Token.braceRise, h]
  rfl

/-- The token is no brace. -/
def Token.braceless (t : Token) : Bool := t.kind != .leftBrace && t.kind != .rightBrace

theorem braceRise_of_braceless {t : Token} (h : t.braceless = true) : t.braceRise = 0 := by
  simp only [Token.braceless, Bool.and_eq_true, bne_iff_ne] at h
  rw [Token.braceRise, if_neg h.1, if_neg h.2]

theorem balanced_of_braceless {ts : List Token} (h : ∀ t ∈ ts, t.braceless = true) : BraceBalanced ts := by
  have hlevel {us : List Token} (hu : us.Sublist ts) : braceLevel us = 0 := by
    refine List.sum_eq_zero fun x hx => ?_
    obtain ⟨t, ht, rfl⟩ := List.mem_map.1 hx
    exact braceRise_of_braceless (h t (hu.subset ht))
  exact ⟨fun n => Int.le_of_eq (hlevel (List.take_sublist n ts)).symm, hlevel (List.Sublist.refl ts)⟩

theorem BraceBalanced.append {ts us : List Token} (ht : BraceBalanced ts) (hu : BraceBalanced us) :
    BraceBalanced (ts ++ us) where
  prefixes n := by
    rw [List.take_append, braceLevel_append]
    exact Int.add_nonneg (ht.prefixes n) (hu.prefixes _)
  closed := by rw [braceLevel_append, ht.closed, hu.closed, add_zero]

/-- A block: something balanced in braces. -/
theorem BraceBalanced.block {o k : Token} {ts : List Token} (ho : o.kind = .leftBrace) (hk : k.kind = .rightBrace)
    (h : BraceBalanced ts) : BraceBalanced (o :: ts ++ [k]) where
  prefixes n := by
    cases n with
    | zero => exact Int.le_refl 0
    | succ n =>
      have hts := h.prefixes n
      have hlast : -1 ≤ braceLevel ([k].take (n - ts.length)) := by
        cases n - ts.length with
        | zero => simp
        | succ m =>
          rw [List.take_succ_cons, List.take_nil, braceLevel_cons, braceRise_of_rightBrace hk]
          decide
      rw [List.cons_append, List.take_succ_cons, braceLevel_cons, braceRise_of_leftBrace ho, List.take_append,
        braceLevel_append]
      omega
  closed := by
    simp only [List.cons_append, braceLevel_cons, braceLevel_append, braceLevel_nil, h.closed,
      braceRise_of_leftBrace ho, braceRise_of_rightBrace hk]
    rfl

/-- A group in braces is closed by its last token. -/
theorem splitGroup_braces {depth : Nat} {ts inside rest : List Token}
    (h : splitGroup .leftBrace .rightBrace depth ts = some (inside, rest)) :
    ∃ taken k, inside = taken ++ [k] ∧ k.kind = .rightBrace ∧ (∀ n, -(depth : Int) ≤ braceLevel (taken.take n)) ∧
      braceLevel taken = -depth := by
  induction ts generalizing depth inside with
  | nil => cases h
  | cons t ts ih =>
    have hstep {d : Nat} (hd : (d : Int) = depth + t.braceRise)
        (hs : (splitGroup .leftBrace .rightBrace d ts).map (fun p => (t :: p.1, p.2)) = some (inside, rest)) :
        ∃ taken k, inside = taken ++ [k] ∧ k.kind = .rightBrace ∧
          (∀ n, -(depth : Int) ≤ braceLevel (taken.take n)) ∧ braceLevel taken = -depth := by
      obtain ⟨⟨after, left⟩, ha, he⟩ := Option.map_eq_some_iff.1 hs
      cases he
      obtain ⟨taken, k, rfl, hk, hp, hc⟩ := ih ha
      refine ⟨t :: taken, k, rfl, hk, fun n => ?_, ?_⟩
      · cases n with
        | zero => simp
        | succ n =>
          have := hp n
          rw [List.take_succ_cons, braceLevel_cons]
          omega
      · rw [braceLevel_cons, hc]
        omega
    unfold splitGroup at h
    split at h
    · next ho =>
      refine hstep ?_ h
      rw [braceRise_of_leftBrace ho]
      rfl
    · next ho =>
      split at h
      · next hk =>
        cases depth with
        | zero =>
          cases h
          exact ⟨[], t, rfl, hk, fun n => by simp, rfl⟩
        | succ depth =>
          refine hstep ?_ h
          rw [braceRise_of_rightBrace hk]
          omega
      · next hk =>
        refine hstep ?_ h
        rw [braceRise_of_braceless (by simp [Token.braceless, ho, hk]), add_zero]

/-! ### Phrases that are passed over -/

/-- The reader takes tokens without looking at the braces among them. -/
inductive Skimming : {α : Type} → Reader α → Prop
  | group {closer : TokenKind} {opener : Token} (h : closer ≠ .rightBrace) : Skimming (group closer opener)
  | type (stops : List String) : Skimming (typeText stops)
  | expression : Skimming expressionText
  | statement : Skimming statement
  | condition (directive : Token) : Skimming (condition directive)
  | skip (test : Token → Bool) : Skimming (skipWhile test)

/-- The reader succeeds on the tokens and passes over the phrases on the way, in this order. -/
inductive Passes : {α : Type} → Reader α → List Token → List (List Token) → Prop
  | skim {α : Type} {p : Reader α} {ts taken rest : List Token} {x : α} (hp : Skimming p)
    (hr : p.run ts = .ok (x, rest)) (ht : taken ++ rest = ts) : Passes p ts [taken]
  | pure {α : Type} (x : α) (ts : List Token) : Passes (pure x) ts []
  | look {α : Type} (f : List Token → α) (ts : List Token) : Passes (look f) ts []
  | token (kind : TokenKind) (ts : List Token) : Passes (token kind) ts []
  | modifiers (ts : List Token) : Passes modifiers ts []
  | operatorName (ts : List Token) : Passes operatorName ts []
  | block {t : Token} (ht : t.kind = .leftBrace) (ts : List Token) : Passes (Reader.group .rightBrace t) ts []
  | bind {α β : Type} {p : Reader α} {f : α → Reader β} {ts rest : List Token} {x : α} {rs rs' : List (List Token)}
    (hp : Passes p ts rs) (hr : p.run ts = .ok (x, rest)) (hf : Passes (f x) rest rs') : Passes (p >>= f) ts (rs ++ rs')
  | absent {α : Type} {test : Token → Bool} {p : Token → Reader α} {ts : List Token}
    (ht : ts.head?.any test = false) : Passes (optionally test p) ts []
  | present {α : Type} {test : Token → Bool} {p : Token → Reader α} {t : Token} {ts : List Token}
    {rs : List (List Token)} (ht : test t = true) (hp : Passes (p t) ts rs) : Passes (optionally test p) (t :: ts) rs
  | ended {α : Type} {test : Token → Bool} {p : Token → Reader α} {ts : List Token}
    (ht : ts.head?.any test = false) : Passes (whileNext test p) ts []
  | repeated {α : Type} {test : Token → Bool} {p : Token → Reader α} {t : Token} {ts rest : List Token} {x : α}
    {rs rs' : List (List Token)} (ht : test t = true) (hp : Passes (p t) ts rs) (hr : (p t).run ts = .ok (x, rest))
    (hw : Passes (whileNext test p) rest rs') : Passes (whileNext test p) (t :: ts) (rs ++ rs')
  | reached {α : Type} {test : Token → Bool} {p : Reader α} {hs : Strict p} {ts : List Token}
    (ht : ts.head?.any test = true) : Passes (untilNext test p hs) ts []
  | further {α : Type} {test : Token → Bool} {p : Reader α} {hs : Strict p} {ts rest : List Token} {x : α}
    {rs rs' : List (List Token)} (ht : ts.head?.any test = false) (hp : Passes p ts rs)
    (hr : p.run ts = .ok (x, rest)) (hw : Passes (untilNext test p hs) rest rs') :
    Passes (untilNext test p hs) ts (rs ++ rs')

/-- The braces among the tokens are those of the phrases, and others that are balanced. -/
structure Accounts (taken : List Token) (phrases : List (List Token)) : Prop where
  level : braceLevel taken = (phrases.map braceLevel).sum
  balanced : (∀ r ∈ phrases, BraceBalanced r) → BraceBalanced taken

theorem accounts_self (taken : List Token) : Accounts taken [taken] where
  level := by simp
  balanced h := h taken (List.mem_singleton_self taken)

theorem accounts_of_braceless {taken : List Token} (h : ∀ t ∈ taken, t.braceless = true) : Accounts taken [] where
  level := (balanced_of_braceless h).closed
  balanced _ := balanced_of_braceless h

theorem Accounts.append {taken taken' : List Token} {rs rs' : List (List Token)} (h : Accounts taken rs)
    (h' : Accounts taken' rs') : Accounts (taken ++ taken') (rs ++ rs') where
  level := by rw [braceLevel_append, h.level, h'.level, List.map_append, List.sum_append]
  balanced hs := (h.balanced fun r hr => hs r (List.mem_append_left _ hr)).append
    (h'.balanced fun r hr => hs r (List.mem_append_right _ hr))

theorem Accounts.cons {t : Token} {taken : List Token} {rs : List (List Token)} (ht : t.braceless = true)
    (h : Accounts taken rs) : Accounts (t :: taken) rs :=
  (@accounts_of_braceless [t] (by simpa using ht)).append h

theorem Accounts.block {o k : Token} {taken : List Token} {rs : List (List Token)} (ho : o.kind = .leftBrace)
    (hk : k.kind = .rightBrace) (h : Accounts taken rs) : Accounts (o :: taken ++ [k]) rs where
  level := by
    simp only [List.cons_append, braceLevel_cons, braceLevel_append, braceLevel_nil, braceRise_of_leftBrace ho,
      braceRise_of_rightBrace hk, h.level]
    omega
  balanced hs := (h.balanced hs).block ho hk

namespace Reader

variable {α β : Type}

/-- What the reader takes has the braces of what it passes over, and others that are balanced. -/
def Counted (p : Reader α) : Prop :=
  ∀ ⦃ts : List Token⦄ ⦃x : α⦄ ⦃rest : List Token⦄, p.run ts = .ok (x, rest) →
    ∃ taken phrases, taken ++ rest = ts ∧ Passes p ts phrases ∧ Accounts taken phrases

/-- So has what the reader takes up to a last token of the kind. -/
def CountedTo (kind : TokenKind) (p : Reader α) : Prop :=
  ∀ ⦃ts : List Token⦄ ⦃x : α⦄ ⦃rest : List Token⦄, p.run ts = .ok (x, rest) →
    ∃ taken k phrases, taken ++ k :: rest = ts ∧ k.kind = kind ∧ Passes p ts phrases ∧ Accounts taken phrases

theorem counted_of_skimming {p : Reader α} (h : Skimming p) : Counted p := by
  intro ts x rest hr
  obtain ⟨taken, ht⟩ := p.suffix hr
  exact ⟨taken, [taken], ht, .skim h hr ht, accounts_self taken⟩

theorem counted_pure (x : α) : Counted (pure x) := by
  intro ts y rest hr
  obtain ⟨-, rfl⟩ := run_pure_eq_ok.1 hr
  exact ⟨[], [], rfl, .pure x ts, accounts_of_braceless (by simp)⟩

theorem counted_look (f : List Token → α) : Counted (look f) := by
  intro ts x rest hr
  cases hr
  exact ⟨[], [], rfl, .look f ts, accounts_of_braceless (by simp)⟩

theorem counted_fail (fault : Fault) : Counted (fail fault : Reader α) := by
  intro ts x rest hr
  cases hr

theorem countedTo_token (kind : TokenKind) : CountedTo kind (token kind) := by
  intro ts t rest hr
  obtain ⟨rfl, hk⟩ := token_eq_ok.1 hr
  exact ⟨[], t, [], rfl, hk, .token kind _, accounts_of_braceless (by simp)⟩

theorem counted_token {kind : TokenKind} (hl : kind ≠ .leftBrace) (hr : kind ≠ .rightBrace) : Counted (token kind) := by
  intro ts t rest h
  obtain ⟨rfl, hk⟩ := token_eq_ok.1 h
  exact ⟨[t], [], rfl, .token kind _, accounts_of_braceless (by simp [Token.braceless, hk, hl, hr])⟩

theorem Counted.bind {p : Reader α} {f : α → Reader β} (hp : Counted p) (hf : ∀ x, Counted (f x)) :
    Counted (p >>= f) := by
  intro ts y left h
  obtain ⟨x, rest, hr, hx⟩ := run_bind_eq_ok.1 h
  obtain ⟨taken, rs, rfl, hpass, haccounts⟩ := hp hr
  obtain ⟨taken', rs', rfl, hpass', haccounts'⟩ := hf x hx
  exact ⟨taken ++ taken', rs ++ rs', List.append_assoc _ _ _, .bind hpass hr hpass', haccounts.append haccounts'⟩

theorem Counted.bindTo {kind : TokenKind} {p : Reader α} {f : α → Reader β} (hp : Counted p)
    (hf : ∀ x, CountedTo kind (f x)) : CountedTo kind (p >>= f) := by
  intro ts y left h
  obtain ⟨x, rest, hr, hx⟩ := run_bind_eq_ok.1 h
  obtain ⟨taken, rs, rfl, hpass, haccounts⟩ := hp hr
  obtain ⟨taken', k, rs', rfl, hk, hpass', haccounts'⟩ := hf x hx
  exact ⟨taken ++ taken', k, rs ++ rs', List.append_assoc _ _ _, hk, .bind hpass hr hpass', haccounts.append haccounts'⟩

theorem CountedTo.bind_pure {kind : TokenKind} {p : Reader α} (hp : CountedTo kind p) (f : α → β) :
    CountedTo kind (p >>= fun x => pure (f x)) := by
  intro ts y left h
  obtain ⟨x, rest, hr, h⟩ := run_bind_eq_ok.1 h
  obtain ⟨-, rfl⟩ := run_pure_eq_ok.1 h
  obtain ⟨taken, k, rs, ht, hk, hpass, haccounts⟩ := hp hr
  exact ⟨taken, k, rs ++ [], ht, hk, .bind hpass hr (.pure _ _), by rwa [List.append_nil]⟩

/-- Something optional that begins with a token that is no brace. -/
theorem counted_optionally {test : Token → Bool} {p : Token → Reader α} (ht : ∀ t, test t = true → t.braceless = true)
    (hp : ∀ t, test t = true → Counted (p t)) : Counted (optionally test p) := by
  intro ts x rest h
  rcases optionally_cases h with ⟨hn, rfl, rfl⟩ | ⟨t, more, y, rfl, htest, hr, rfl⟩
  · exact ⟨[], [], rfl, .absent hn, accounts_of_braceless (by simp)⟩
  · obtain ⟨taken, rs, rfl, hpass, haccounts⟩ := hp t htest hr
    exact ⟨t :: taken, rs, rfl, .present htest hpass, haccounts.cons (ht t htest)⟩

/-- An optional block in braces. -/
theorem counted_block {p : Token → Reader α} (hp : ∀ t, t.kind = .leftBrace → CountedTo .rightBrace (p t)) :
    Counted (optionally (·.kind == .leftBrace) p) := by
  intro ts x rest h
  rcases optionally_cases h with ⟨hn, rfl, rfl⟩ | ⟨t, more, y, rfl, htest, hr, rfl⟩
  · exact ⟨[], [], rfl, .absent hn, accounts_of_braceless (by simp)⟩
  · obtain ⟨taken, k, rs, rfl, hk, hpass, haccounts⟩ := hp t (beq_iff_eq.1 htest) hr
    exact ⟨t :: taken ++ [k], rs, by simp, .present htest hpass, haccounts.block (beq_iff_eq.1 htest) hk⟩

theorem counted_whileNext {test : Token → Bool} {p : Token → Reader α} (ht : ∀ t, test t = true → t.braceless = true)
    (hp : ∀ t, test t = true → Counted (p t)) : Counted (whileNext test p) := by
  intro ts xs left h
  change whileNextRun test p ts = .ok (xs, left) at h
  fun_induction whileNextRun test p ts generalizing xs left with
  | case1 =>
    cases h
    exact ⟨[], [], rfl, .ended rfl, accounts_of_braceless (by simp)⟩
  | case2 t ts htest x after hr xs' left' hw ih =>
    cases h
    obtain ⟨taken, rs, rfl, hpass, haccounts⟩ := hp t htest hr
    obtain ⟨taken', rs', rfl, hpass', haccounts'⟩ := ih hw
    exact ⟨t :: taken ++ taken', rs ++ rs', by simp, .repeated htest hpass hr hpass',
      (haccounts.cons (ht t htest)).append haccounts'⟩
  | case3 => cases h
  | case4 => cases h
  | case5 t ts htest =>
    cases h
    exact ⟨[], [], rfl, .ended (by simpa using htest), accounts_of_braceless (by simp)⟩

theorem counted_untilNext {test : Token → Bool} {p : Reader α} (hs : Strict p) (hp : Counted p) :
    Counted (untilNext test p hs) := by
  intro ts xs left h
  change untilNextRun test p hs ts = .ok (xs, left) at h
  fun_induction untilNextRun test p hs ts generalizing xs left with
  | case1 ts htest =>
    cases h
    exact ⟨[], [], rfl, .reached htest, accounts_of_braceless (by simp)⟩
  | case2 ts htest x after hr xs' left' hw ih =>
    cases h
    obtain ⟨taken, rs, rfl, hpass, haccounts⟩ := hp hr
    obtain ⟨taken', rs', rfl, hpass', haccounts'⟩ := ih hw
    exact ⟨taken ++ taken', rs ++ rs', List.append_assoc _ _ _, .further (by simpa using htest) hpass hr hpass',
      haccounts.append haccounts'⟩
  | case3 => cases h
  | case4 => cases h

/-! ### Headers -/

/-- A block in braces is closed by its last token. -/
theorem countedTo_group {t : Token} (ht : t.kind = .leftBrace) : CountedTo .rightBrace (group .rightBrace t) := by
  intro ts x rest h
  have hpass : Passes (group .rightBrace t) ts [] := .block ht ts
  simp only [group, ht] at h
  split at h
  · next inside left hs =>
    cases h
    obtain ⟨taken, k, rfl, hk, hp, hc⟩ := splitGroup_braces hs
    have hbalanced : BraceBalanced taken := ⟨fun n => by simpa using hp n, by simpa using hc⟩
    refine ⟨taken, k, [], ?_, hk, hpass, ⟨hbalanced.closed, fun _ => hbalanced⟩⟩
    rw [← splitGroup_append hs, List.append_assoc, List.singleton_append]
  · cases h

theorem counted_parentheses : Counted (optionally (·.kind == .leftParen) (group .rightParen)) :=
  counted_optionally (fun t h => by simp [Token.braceless, beq_iff_eq.1 h])
    fun _ _ => counted_of_skimming (.group (by decide))

theorem counted_attributeAfter (t : Token) : Counted (attributeAfter t) := by
  have hparen (u : Token) (h : (u.kind == TokenKind.leftParen && u.isAttached) = true) : u.braceless = true := by
    rw [Bool.and_eq_true, beq_iff_eq] at h
    simp [Token.braceless, h.1]
  exact (counted_optionally hparen fun _ _ => counted_of_skimming (.group (by decide))).bind fun _ => counted_pure _

theorem counted_attributes : Counted attributes :=
  counted_whileNext (fun t h => by simp [Token.braceless, beq_iff_eq.1 h]) fun t _ => counted_attributeAfter t

theorem braceless_of_isOneOf {t : Token} {words : List String} (h : t.isOneOf words = true) : t.braceless = true := by
  rw [Token.isOneOf, Bool.and_eq_true, beq_iff_eq] at h
  simp [Token.braceless, h.1]

/-- The tokens of a detail are parentheses and a word. -/
theorem braceless_of_modifierDetail? {ts : List Token} (h : (modifierDetail? ts).isSome = true) :
    ∀ t ∈ ts.take 3, t.braceless = true := by
  unfold modifierDetail? at h
  split at h
  · next a b c rest =>
    split at h
    · next hk =>
      simp only [Bool.and_eq_true, decide_eq_true_eq] at hk
      simp [Token.braceless, hk]
    · cases h
  · cases h

theorem counted_modifiers : Counted modifiers := by
  intro ts ms rest h
  have hs : splitModifiers ts = (ms, rest) := Except.ok.inj h
  suffices hb : ∃ taken, taken ++ (splitModifiers ts).2 = ts ∧ ∀ t ∈ taken, t.braceless = true by
    obtain ⟨taken, ht, hb⟩ := hb
    rw [hs] at ht
    exact ⟨taken, [], ht, .modifiers ts, accounts_of_braceless hb⟩
  clear h hs
  fun_induction splitModifiers ts with
  | case1 => exact ⟨[], rfl, by simp⟩
  | case2 t ts htest detail after ih =>
    obtain ⟨taken, ht, hb⟩ := ih
    rw [Bool.and_eq_true] at htest
    refine ⟨t :: ts.take (if h : detail.isSome = true then 3 else 0) ++ taken, ?_, ?_⟩
    · rw [List.append_assoc, ht, List.cons_append, List.take_append_drop]
    · intro u hu
      rcases List.mem_append.1 hu with hu | hu
      · rcases List.mem_cons.1 hu with rfl | hu
        · exact braceless_of_isOneOf htest.1
        · split at hu
          · next hd => exact braceless_of_modifierDetail? hd u hu
          · cases hu
      · exact hb u hu
  | case3 => exact ⟨[], rfl, by simp⟩

theorem counted_effects : Counted effects := by
  have heffect (t : Token) (h : (effectOf? t).isSome = true) : t.braceless = true := by
    unfold effectOf? at h
    split at h
    · next hk => simp [Token.braceless, hk]
    · cases h
  exact (counted_whileNext heffect fun _ _ => counted_parentheses.bind fun _ => counted_pure _).bind fun _ =>
    counted_pure _

theorem counted_accessorNamed (t : Token) : Counted (accessorNamed t) := by
  unfold accessorNamed
  split
  · exact counted_pure _
  · exact counted_fail _

theorem counted_accessor : Counted accessor :=
  counted_attributes.bind fun _ => (counted_of_skimming (.skip _)).bind fun _ =>
    (counted_token (by decide) (by decide)).bind fun t => (counted_accessorNamed t).bind fun _ =>
      counted_parentheses.bind fun _ => counted_effects.bind fun _ =>
        (counted_block fun _ h => countedTo_group h).bind fun _ => counted_pure _

theorem countedTo_accessorBlock {t : Token} (ht : t.kind = .leftBrace) : CountedTo .rightBrace (accessorBlock t) := by
  refine (counted_look _).bindTo fun listed => ?_
  split
  · exact (counted_untilNext strict_accessor counted_accessor).bindTo fun _ => (countedTo_token _).bind_pure _
  · exact (countedTo_group ht).bind_pure _

theorem counted_bindingName : Counted bindingName := by
  refine counted_parentheses.bind fun pattern => ?_
  cases pattern with
  | none => exact (counted_token (by decide) (by decide)).bind fun _ => counted_pure _
  | some _ => exact counted_pure _

theorem braceless_of_isAssignment {t : Token} (h : isAssignment t = true) : t.braceless = true := by
  rw [isAssignment, Bool.and_eq_true, beq_iff_eq] at h
  simp [Token.braceless, h.1]

theorem counted_initializer : Counted (optionally isAssignment fun _ => expressionText) :=
  counted_optionally (fun _ h => braceless_of_isAssignment h) fun _ _ => counted_of_skimming .expression

theorem counted_binding : Counted binding :=
  counted_bindingName.bind fun _ =>
    (counted_optionally (fun t h => by simp [Token.braceless, beq_iff_eq.1 h])
      fun _ _ => counted_of_skimming (.type _)).bind fun _ =>
      counted_initializer.bind fun _ => (counted_block fun _ h => countedTo_accessorBlock h).bind fun _ => counted_pure _

theorem counted_byCommas {p : Reader α} (hp : Counted p) : Counted (byCommas p) :=
  hp.bind fun _ => (counted_whileNext (fun t h => by simp [Token.braceless, beq_iff_eq.1 h]) fun _ _ => hp).bind
    fun _ => counted_pure _

theorem counted_operatorName : Counted operatorName := by
  intro ts name rest h
  cases ts with
  | nil => cases h
  | cons t ts =>
    have hpass := Passes.operatorName (t :: ts)
    simp only [operatorName] at h
    split at h
    · next hstarts =>
      cases h
      refine ⟨t :: ts.takeWhile continuesOperator, [], ?_, hpass, accounts_of_braceless fun u hu => ?_⟩
      · rw [List.cons_append, List.takeWhile_append_dropWhile]
      rcases List.mem_cons.1 hu with rfl | hu
      · simp only [startsOperator, Bool.or_eq_true, beq_iff_eq] at hstarts
        rcases hstarts with (((hk | hk) | hk) | hk) | hk <;> simp [Token.braceless, hk]
      · have hgoes := List.mem_takeWhile_imp hu
        simp only [continuesOperator, Bool.and_eq_true, Bool.or_eq_true, beq_iff_eq] at hgoes
        rcases hgoes.2 with ((hk | hk) | hk) | hk <;> simp [Token.braceless, hk]
    · cases h

theorem counted_functionName : Counted functionName := by
  refine (counted_optionally (fun t h => by simp [Token.braceless, beq_iff_eq.1 h])
    fun t _ => counted_pure t).bind fun name => ?_
  cases name with
  | none => exact counted_operatorName.bind fun _ => counted_pure _
  | some _ => exact counted_pure _

theorem counted_genericClause : Counted genericClause :=
  counted_optionally (fun t h => by simp [Token.braceless, beq_iff_eq.1 h])
    fun _ _ => (counted_of_skimming (.group (by decide))).bind fun _ => counted_pure _

theorem counted_parameter : Counted parameter :=
  counted_attributes.bind fun _ => (counted_token (by decide) (by decide)).bind fun _ =>
    (counted_optionally (fun t h => by simp [Token.braceless, beq_iff_eq.1 h]) fun t _ => counted_pure t).bind fun _ =>
      (counted_token (by decide) (by decide)).bind fun _ => (counted_of_skimming (.type _)).bind fun _ =>
        counted_initializer.bind fun _ => counted_pure _

theorem counted_parameterUnlessClosed : Counted parameterUnlessClosed := by
  refine (counted_look _).bind fun closed => ?_
  split
  · exact counted_pure _
  · exact counted_parameter.bind fun _ => counted_pure _

theorem counted_parameterClause : Counted parameterClause :=
  (counted_token (by decide) (by decide)).bind fun _ => counted_parameterUnlessClosed.bind fun _ =>
    (counted_whileNext (fun t h => by simp [Token.braceless, beq_iff_eq.1 h])
      fun _ _ => counted_parameterUnlessClosed).bind fun _ =>
      (counted_token (by decide) (by decide)).bind fun _ => counted_pure _

theorem counted_requirements (test : Token → Bool) :
    Counted (optionally (·.isIdentifier "where") fun _ => skipWhile test) := by
  refine counted_optionally (fun t h => ?_) fun _ _ => counted_of_skimming (.skip _)
  rw [Token.isIdentifier, Bool.and_eq_true, beq_iff_eq] at h
  simp [Token.braceless, h.1]

theorem counted_function : Counted function :=
  counted_functionName.bind fun _ => counted_genericClause.bind fun _ => counted_parameterClause.bind fun _ =>
    counted_effects.bind fun _ =>
      (counted_optionally (fun t h => by simp [Token.braceless, beq_iff_eq.1 h])
        fun _ _ => counted_of_skimming (.type _)).bind fun _ =>
        (counted_requirements _).bind fun _ =>
          (counted_block fun _ h => countedTo_group h).bind fun _ => counted_pure _

theorem counted_typeName (keyword : TypeKeyword) : Counted (typeName keyword) := by
  unfold typeName
  split
  · exact (counted_of_skimming (.type _)).bind fun _ => counted_pure _
  · exact (counted_token (by decide) (by decide)).bind fun _ => counted_genericClause.bind fun _ => counted_pure _

theorem counted_inheritance : Counted inheritance :=
  (counted_optionally (fun t h => by simp [Token.braceless, beq_iff_eq.1 h])
    fun _ _ => counted_byCommas (counted_of_skimming (.type _))).bind fun _ => counted_pure _

theorem countedTo_typeHeader (keyword : TypeKeyword) : CountedTo .leftBrace (typeHeader keyword) :=
  (counted_typeName keyword).bindTo fun _ => counted_inheritance.bindTo fun _ => (counted_requirements _).bindTo fun _ =>
    (countedTo_token _).bind_pure _

theorem counted_otherName (keyword : String) : Counted (otherName keyword) := by
  refine (counted_look _).bind fun next => (counted_of_skimming .statement).bind fun _ => ?_
  cases next <;> exact counted_pure _

theorem counted_directive (t : Token) : Counted (directive t) := by
  unfold directive
  split
  · exact counted_fail _
  · exact counted_parentheses.bind fun _ => counted_pure _

theorem counted_headFrom (t : Token) : Counted (headFrom t) :=
  counted_attributes.bind fun _ => counted_modifiers.bind fun _ => counted_pure _

end Reader

end TestHooks.Swift
