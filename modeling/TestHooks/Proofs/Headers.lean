import TestHooks.Proofs.Reading

/-!
# Reading headers, step by step

What a reader of a phrase or of the header of a type has found when it succeeds.
-/

namespace TestHooks.Reader

variable {τ ε α β : Type}

theorem optionally_skip {test : τ → Bool} {p : τ → Reader τ ε α} {ts : List τ} (h : ts.head?.any test = false) :
    (optionally test p).run ts = .ok (none, ts) := by
  cases ts with
  | nil => rfl
  | cons t more =>
    rw [List.head?_cons, Option.any_some] at h
    simp only [optionally, h, Bool.false_eq_true, if_false]

theorem optionally_take {test : τ → Bool} {p : τ → Reader τ ε α} {t : τ} {more rest : List τ} {x : α}
    (ht : test t = true) (hp : (p t).run more = .ok (x, rest)) :
    (optionally test p).run (t :: more) = .ok (some x, rest) := by
  simp only [optionally, ht, if_true, hp]

/-- An optional part is missing, or begins with a symbol that satisfies the test. -/
theorem optionally_cases {test : τ → Bool} {p : τ → Reader τ ε α} {ts rest : List τ} {x : Option α}
    (h : (optionally test p).run ts = .ok (x, rest)) :
    (ts.head?.any test = false ∧ x = none ∧ rest = ts) ∨
      ∃ t more y, ts = t :: more ∧ test t = true ∧ (p t).run more = .ok (y, rest) ∧ x = some y := by
  by_cases hh : ts.head?.any test = true
  · cases ts with
    | nil => cases hh
    | cons t more =>
      rw [List.head?_cons, Option.any_some] at hh
      cases hp : (p t).run more with
      | error fault =>
        simp only [optionally, hh, if_true, hp] at h
        cases h
      | ok found =>
        rw [optionally_take hh hp] at h
        cases h
        exact .inr ⟨t, more, _, rfl, hh, hp, rfl⟩
  · rw [Bool.not_eq_true] at hh
    rw [optionally_skip hh] at h
    cases h
    exact .inl ⟨hh, rfl, rfl⟩

theorem whileNext_skip {test : τ → Bool} {p : τ → Reader τ ε α} {ts : List τ} (h : ts.head?.any test = false) :
    (whileNext test p).run ts = .ok ([], ts) := by
  cases ts with
  | nil =>
    simp only [whileNext]
    rw [whileNextRun]
  | cons t more =>
    rw [List.head?_cons, Option.any_some] at h
    simp only [whileNext]
    rw [whileNextRun, h, if_neg Bool.false_ne_true]

/-! ### Readers in sequence -/

theorem run_bind_eq (p : Reader τ ε α) (f : α → Reader τ ε β) (ts : List τ) :
    (p >>= f).run ts = p.run ts >>= fun found => (f found.1).run found.2 := by
  rw [run_bind]
  cases p.run ts <;> rfl

theorem run_bind_of {p : Reader τ ε α} {ts rest : List τ} {x : α} (h : p.run ts = .ok (x, rest)) (f : α → Reader τ ε β) :
    (p >>= f).run ts = (f x).run rest := by
  rw [run_bind, h]

theorem optionally_cons (test : τ → Bool) (p : τ → Reader τ ε α) (t : τ) (ts : List τ) :
    (optionally test p).run (t :: ts) =
      if test t then (p t).run ts >>= fun found => .ok (some found.1, found.2) else .ok (none, t :: ts) := by
  simp only [optionally]
  cases (p t).run ts <;> rfl

theorem whileNextRun_cons (test : τ → Bool) (p : τ → Reader τ ε α) (t : τ) (ts : List τ) :
    whileNextRun test p (t :: ts) =
      if test t then (p t).run ts >>= fun found =>
        whileNextRun test p found.2 >>= fun others => .ok (found.1 :: others.1, others.2)
      else .ok ([], t :: ts) := by
  rw [whileNextRun]
  split
  · split
    · next hr =>
      rw [hr]
      change _ = whileNextRun test p _ >>= _
      cases whileNextRun test p _ <;> rfl
    · next hr =>
      rw [hr]
      rfl
  · rfl

theorem untilNextRun_eq (test : τ → Bool) (p : Reader τ ε α) (hp : Strict p) (ts : List τ) :
    untilNextRun test p hp ts =
      if ts.head?.any test then .ok ([], ts)
      else p.run ts >>= fun found =>
        untilNextRun test p hp found.2 >>= fun others => .ok (found.1 :: others.1, others.2) := by
  rw [untilNextRun]
  split
  · rfl
  · split
    · next hr =>
      rw [hr]
      change _ = untilNextRun test p hp _ >>= _
      cases untilNextRun test p hp _ <;> rfl
    · next hr =>
      rw [hr]
      rfl

theorem whileNextRun_step {p : τ → Reader τ ε α} {t : τ} {ts after rest : List τ} {x : α} {xs : List α}
    (ht : test t = true) (hp : (p t).run ts = .ok (x, after)) (hw : whileNextRun test p after = .ok (xs, rest)) :
    whileNextRun test p (t :: ts) = .ok (x :: xs, rest) := by
  rw [whileNextRun_cons, if_pos ht, hp]
  change (whileNextRun test p after >>= _) = _
  rw [hw]
  rfl

theorem untilNextRun_step {p : Reader τ ε α} {hs : Strict p} {ts after rest : List τ} {x : α} {xs : List α}
    (ht : ts.head?.any test = false) (hp : p.run ts = .ok (x, after))
    (hw : untilNextRun test p hs after = .ok (xs, rest)) : untilNextRun test p hs ts = .ok (x :: xs, rest) := by
  rw [untilNextRun_eq, ht, hp]
  change (untilNextRun test p hs after >>= _) = _
  rw [hw]
  rfl

end TestHooks.Reader

namespace TestHooks.Swift

open TestHooks.Reader TestHooks.Text Reader

theorem token_eq_ok {kind : TokenKind} {ts rest : List Token} {t : Token} :
    (token kind).run ts = .ok (t, rest) ↔ ts = t :: rest ∧ t.kind = kind := by
  cases ts with
  | nil => simp [token]
  | cons u us =>
    simp only [token, List.cons.injEq]
    split
    · next hk =>
      simp only [Except.ok.injEq, Prod.mk.injEq]
      constructor
      · rintro ⟨rfl, rfl⟩
        exact ⟨⟨rfl, rfl⟩, hk⟩
      · rintro ⟨⟨rfl, rfl⟩, -⟩
        exact ⟨rfl, rfl⟩
    · next hk =>
      simp only [reduceCtorEq, false_iff, not_and]
      rintro ⟨rfl, rfl⟩
      exact hk

theorem byCommas_one {α : Type} {p : Reader α} {ts rest : List Token} {x : α} (hp : p.run ts = .ok (x, rest))
    (hr : rest.head?.any (·.kind == .comma) = false) : (byCommas p).run ts = .ok ([x], rest) := by
  unfold byCommas
  rw [run_bind_eq_ok]
  exact ⟨x, rest, hp, run_bind_eq_ok.2 ⟨[], rest, whileNext_skip hr, rfl⟩⟩

/-- A phrase that is read is not empty. -/
theorem phraseBy_eq_ok {split : List Token → List Token × List Token} {h : ∀ ts, (split ts).1 ++ (split ts).2 = ts}
    {missing : Cause} {ts rest : List Token} {text : String} :
    (phraseBy split h missing).run ts = .ok (text, rest) ↔
      ∃ t taken, split ts = (t :: taken, rest) ∧ text = phrase (t :: taken) := by
  simp only [phraseBy]
  rcases hs : split ts with ⟨taken, left⟩
  cases taken with
  | nil => cases left <;> simp
  | cons t taken =>
    simp only [Except.ok.injEq, Prod.mk.injEq, List.cons.injEq]
    constructor
    · rintro ⟨rfl, rfl⟩
      exact ⟨t, taken, ⟨⟨rfl, rfl⟩, rfl⟩, rfl⟩
    · rintro ⟨u, us, ⟨⟨rfl, rfl⟩, rfl⟩, rfl⟩
      exact ⟨rfl, rfl⟩

section Heads

variable {t k : Token} (hk : k.kind = .identifier) (hw : modifierWords.contains k.text = false)

include hw

theorem splitModifiers_word (rest : List Token) : splitModifiers (k :: rest) = ([], k :: rest) := by
  rw [splitModifiers, Token.isOneOf, hw, Bool.and_false, Bool.false_and, if_neg Bool.false_ne_true]

include hk

/-- A word that is no modifier has nothing before it. -/
theorem headFrom_word (rest : List Token) : (headFrom k).run (k :: rest) = .ok (⟨[], [], k.position⟩, k :: rest) := by
  have hnone : attributes.run (k :: rest) = .ok ([], k :: rest) := whileNext_skip (by simp [hk])
  unfold headFrom
  rw [run_bind_eq_ok]
  refine ⟨_, _, hnone, run_bind_eq_ok.2 ⟨_, _, congrArg Except.ok (splitModifiers_word hw rest), rfl⟩⟩

/-- A modifier before a word that is none. -/
theorem headFrom_modifier (ht : t.kind = .identifier) (hm : modifierWords.contains t.text = true)
    (hc : t.text ≠ "class") (rest : List Token) :
    (headFrom t).run (t :: k :: rest) = .ok (⟨[], [⟨t.text, none⟩], t.position⟩, k :: rest) := by
  have hnone : attributes.run (t :: k :: rest) = .ok ([], t :: k :: rest) := whileNext_skip (by simp [ht])
  have hdetail : modifierDetail? (k :: rest) = none := by
    unfold modifierDetail?
    split
    · next he =>
      cases he
      simp [hk]
    · rfl
  have hsplit : splitModifiers (t :: k :: rest) = ([⟨t.text, none⟩], k :: rest) := by
    have htest : (t.isOneOf modifierWords && (t.text != "class" || modifiesMember (k :: rest))) = true := by
      rw [Token.isOneOf, ht, hm, bne_iff_ne.2 hc]
      rfl
    rw [splitModifiers, if_pos htest, hdetail]
    simp only [Option.isSome_none, Bool.false_eq_true, if_false, List.drop_zero, splitModifiers_word hw]
  unfold headFrom
  rw [run_bind_eq_ok]
  refine ⟨_, _, hnone, run_bind_eq_ok.2 ⟨_, _, congrArg Except.ok hsplit, rfl⟩⟩

end Heads

/-- The keyword of a type stands alone if no word follows that `class` may modify. -/
theorem headFrom_type {k n : Token} {keyword : TypeKeyword} (hk : k.kind = .identifier) (ht : k.text = keyword.text)
    (hn : modifiesMember [n] = false) (rest : List Token) :
    (headFrom k).run (k :: n :: rest) = .ok (⟨[], [], k.position⟩, k :: n :: rest) := by
  have hnone : attributes.run (k :: n :: rest) = .ok ([], k :: n :: rest) := whileNext_skip (by simp [hk])
  have hplain : (k.isOneOf modifierWords && (k.text != "class" || modifiesMember (n :: rest))) = false := by
    have hmember : modifiesMember (n :: rest) = false := hn
    rw [hmember, Token.isOneOf, hk, ht]
    cases keyword <;> decide
  have hsplit : splitModifiers (k :: n :: rest) = ([], k :: n :: rest) := by
    rw [splitModifiers, if_neg (by rw [hplain]; exact Bool.false_ne_true)]
  unfold headFrom
  rw [run_bind_eq_ok]
  exact ⟨_, _, hnone, run_bind_eq_ok.2 ⟨_, _, congrArg Except.ok hsplit, rfl⟩⟩

/-- The header of a type is its name, what it inherits, its requirements and the opening brace. -/
theorem typeHeader_cases {keyword : TypeKeyword} {ts left : List Token} {header : TypeHeader}
    (h : (typeHeader keyword).run ts = .ok (header, left)) :
    ∃ named inherited required brace, (typeName keyword).run ts = .ok ((header.name, header.generics), named) ∧
      inheritance.run named = .ok (header.inherited, inherited) ∧
      (optionally (ε := Fault) (·.isIdentifier "where") fun _ => skipWhile (·.kind != .leftBrace)).run inherited =
        .ok (required, brace :: left) ∧
      brace.kind = .leftBrace ∧ header.keyword = keyword := by
  unfold typeHeader at h
  obtain ⟨⟨name, generics⟩, named, hn, h⟩ := run_bind_eq_ok.1 h
  obtain ⟨bases, inherited, hi, h⟩ := run_bind_eq_ok.1 h
  obtain ⟨required, after, hr, h⟩ := run_bind_eq_ok.1 h
  obtain ⟨brace, rest, hb, h⟩ := run_bind_eq_ok.1 h
  obtain ⟨rfl, rfl⟩ := run_pure_eq_ok.1 h
  obtain ⟨rfl, hk⟩ := token_eq_ok.1 hb
  exact ⟨named, inherited, required, brace, hn, hi, hr, hk, rfl⟩

/-- An extension is named by a phrase, other types by one word. -/
theorem typeName_cases {keyword : TypeKeyword} {ts left : List Token} {name : String} {generics : Option String}
    (h : (typeName keyword).run ts = .ok ((name, generics), left)) :
    (keyword = .extensionType ∧ generics = none ∧
        ∃ t taken, splitType ["where"] 0 none ts = (t :: taken, left) ∧ name = phrase (t :: taken)) ∨
      (keyword ≠ .extensionType ∧ ∃ t more, ts = t :: more ∧ t.kind = .identifier ∧ name = t.text ∧
        genericClause.run more = .ok (generics, left)) := by
  unfold typeName at h
  split at h
  · next hk =>
    obtain ⟨text, rest, ht, h⟩ := run_bind_eq_ok.1 h
    obtain ⟨he, rfl⟩ := run_pure_eq_ok.1 h
    cases he
    exact .inl ⟨hk, rfl, phraseBy_eq_ok.1 ht⟩
  · next hk =>
    obtain ⟨t, rest, ht, h⟩ := run_bind_eq_ok.1 h
    obtain ⟨clause, after, hg, h⟩ := run_bind_eq_ok.1 h
    obtain ⟨he, rfl⟩ := run_pure_eq_ok.1 h
    cases he
    obtain ⟨rfl, htk⟩ := token_eq_ok.1 ht
    exact .inr ⟨hk, t, rest, rfl, htk, rfl, hg⟩

theorem collapse_ne_nil {inRun : Bool} {c : Char} {cs : List Char} (h : inRun = false) :
    collapseFrom inRun (c :: cs) ≠ [] := by
  rw [collapseFrom, h]
  split <;> simp

theorem phrase_ne_empty {t : Token} {ts : List Token} (h : t.text ≠ "") : phrase (t :: ts) ≠ "" := by
  intro he
  have hl : (phrase (t :: ts)).toList = [] := by rw [he]; rfl
  rw [phrase, String.toList_ofList] at hl
  cases hc : t.text.toList with
  | nil => exact h (String.toList_eq_nil_iff.1 hc)
  | cons c cs =>
    rw [hc, List.cons_append] at hl
    exact collapse_ne_nil rfl hl

/-- Types have names. -/
theorem typeHeader_name {keyword : TypeKeyword} {ts left : List Token} {header : TypeHeader}
    (h : (typeHeader keyword).run ts = .ok (header, left)) (hts : ∀ t ∈ ts, t.text ≠ "") : header.name ≠ "" := by
  obtain ⟨named, -, -, -, hn, -⟩ := typeHeader_cases h
  rcases typeName_cases hn with ⟨-, -, t, taken, hs, hname⟩ | ⟨-, t, more, rfl, -, hname, -⟩
  · have ht : t ∈ ts := by
      have ha := splitType_append ["where"] 0 none ts
      rw [hs] at ha
      rw [← ha]
      simp
    rw [hname]
    exact phrase_ne_empty (hts t ht)
  · rw [hname]
    exact hts t List.mem_cons_self

/-! ### Plain headers -/

theorem inheritance_skip {ts : List Token} (h : ts.head?.any (·.kind == .colon) = false) :
    inheritance.run ts = .ok ([], ts) := by
  unfold inheritance
  rw [run_bind_eq_ok]
  exact ⟨none, ts, optionally_skip h, rfl⟩

/-- A type that is only named. -/
theorem typeHeader_named {keyword : TypeKeyword} {name opener : Token} (hx : keyword ≠ .extensionType)
    (hn : name.kind = .identifier) (ho : opener.kind = .leftBrace) (rest : List Token) :
    (typeHeader keyword).run (name :: opener :: rest) = .ok (⟨keyword, name.text, none, []⟩, rest) := by
  have hnamed : (typeName keyword).run (name :: opener :: rest) = .ok ((name.text, none), opener :: rest) := by
    unfold typeName genericClause
    rw [if_neg hx, run_bind_eq_ok]
    exact ⟨name, _, token_eq_ok.2 ⟨rfl, hn⟩, run_bind_eq_ok.2 ⟨none, _, optionally_skip (by simp [ho]), rfl⟩⟩
  unfold typeHeader
  rw [run_bind_eq_ok]
  exact ⟨_, _, hnamed, run_bind_eq_ok.2 ⟨[], _, inheritance_skip (by simp [ho]), run_bind_eq_ok.2 ⟨none, _,
    optionally_skip (by simp [Token.isIdentifier, ho]), run_bind_eq_ok.2 ⟨opener, rest, token_eq_ok.2 ⟨rfl, ho⟩, rfl⟩⟩⟩⟩

/-! ### Words -/

theorem introducer_type {k : Token} {keyword : TypeKeyword} (hk : k.kind = .identifier) (ht : k.text = keyword.text) :
    Introducer.ofToken? k = some (.type keyword) := by
  rw [Introducer.ofToken?, hk, ht]
  cases keyword <;> decide

theorem introducer_variable {k : Token} {keyword : VariableKeyword} (hk : k.kind = .identifier)
    (ht : k.text = keyword.text) : Introducer.ofToken? k = some (.variableList keyword) := by
  rw [Introducer.ofToken?, hk, ht]
  cases keyword <;> decide

theorem introducer_function {k : Token} (hk : k.kind = .identifier) (ht : k.text = "func") :
    Introducer.ofToken? k = some .function := by
  rw [Introducer.ofToken?, hk, ht]
  decide

theorem effectOf_none {t : Token} (h : t.text ∉ Effect.all.map Effect.text) : effectOf? t = none := by
  unfold effectOf?
  split
  · rw [List.find?_eq_none]
    intro e he hx
    exact h (List.mem_map.2 ⟨e, he, by simpa using hx⟩)
  · rfl

theorem accessor_word {t : Token} {a : Accessor} (h : accessorOf? t = some a) :
    t.kind = .identifier ∧ t.isOneOf accessorPrefixes = false ∧ effectOf? t = none := by
  unfold accessorOf? at h
  split at h
  · next hk =>
    have ht : a.text = t.text := by simpa using List.find?_some h
    refine ⟨hk, ?_, effectOf_none ?_⟩
    · rw [Token.isOneOf, hk, ← ht]
      cases a <;> decide
    · rw [← ht]
      cases a <;> decide
  · cases h

/-! ### Names -/

theorem bindingName_word {t : Token} (ht : t.kind = .identifier) (rest : List Token) :
    bindingName.run (t :: rest) = .ok ((t.text, false), rest) := by
  unfold bindingName
  rw [run_bind_eq_ok]
  exact ⟨none, _, optionally_skip (by simp [ht]), run_bind_eq_ok.2 ⟨t, rest, token_eq_ok.2 ⟨rfl, ht⟩, rfl⟩⟩

theorem functionName_word {t : Token} (ht : t.kind = .identifier) (rest : List Token) :
    functionName.run (t :: rest) = .ok ((t.text, false), rest) := by
  unfold functionName
  rw [run_bind_eq_ok]
  exact ⟨some t, rest, optionally_take (by simp [ht]) rfl, rfl⟩

/-! ### Members taken apart -/

theorem byCommas_cases {α : Type} {p : Reader α} {ts left : List Token} {xs : List α}
    (h : (byCommas p).run ts = .ok (xs, left)) :
    ∃ first after others, p.run ts = .ok (first, after) ∧
      (whileNext (·.kind == .comma) fun _ => p).run after = .ok (others, left) ∧ xs = first :: others := by
  unfold byCommas at h
  obtain ⟨first, after, hf, h⟩ := run_bind_eq_ok.1 h
  obtain ⟨others, after', ho, h⟩ := run_bind_eq_ok.1 h
  obtain ⟨rfl, rfl⟩ := run_pure_eq_ok.1 h
  exact ⟨first, after, others, hf, ho, rfl⟩

/-- What is no pattern is named by a word. -/
theorem bindingName_cases {ts left : List Token} {name : String} (h : bindingName.run ts = .ok ((name, false), left)) :
    ∃ t, ts = t :: left ∧ t.kind = .identifier ∧ name = t.text := by
  unfold bindingName at h
  obtain ⟨pattern, after, hp, hname⟩ := run_bind_eq_ok.1 h
  rcases optionally_cases hp with ⟨-, rfl, rfl⟩ | ⟨-, -, pattern, -, -, -, rfl⟩
  · obtain ⟨t, rest, ht, hword⟩ := run_bind_eq_ok.1 hname
    obtain ⟨he, rfl⟩ := run_pure_eq_ok.1 hword
    obtain ⟨rfl, hk⟩ := token_eq_ok.1 ht
    exact ⟨t, rfl, hk, (congrArg Prod.fst he).symm⟩
  · cases (run_pure_eq_ok.1 hname).1

/-- What is no operator is named by a word. -/
theorem functionName_cases {ts left : List Token} {name : String} (h : functionName.run ts = .ok ((name, false), left)) :
    ∃ t, ts = t :: left ∧ t.kind = .identifier ∧ name = t.text := by
  unfold functionName at h
  obtain ⟨word, after, hw, h⟩ := run_bind_eq_ok.1 h
  rcases optionally_cases hw with ⟨-, rfl, -⟩ | ⟨t, more, y, rfl, hk, hy, rfl⟩
  · obtain ⟨operator, after, -, h⟩ := run_bind_eq_ok.1 h
    cases (run_pure_eq_ok.1 h).1
  · obtain ⟨rfl, rfl⟩ := run_pure_eq_ok.1 hy
    obtain ⟨he, rfl⟩ := run_pure_eq_ok.1 h
    exact ⟨t, rfl, by simpa using hk, (congrArg Prod.fst he).symm⟩

theorem binding_cases {ts left : List Token} {b : Binding} (h : binding.run ts = .ok (b, left)) :
    ∃ named typed valued, bindingName.run ts = .ok ((b.name, b.isPattern), named) ∧
      (optionally (·.kind == .colon) fun _ => typeText []).run named = .ok (b.type, typed) ∧
      (optionally isAssignment fun _ => expressionText).run typed = .ok (b.initializer, valued) ∧
      (optionally (·.kind == .leftBrace) accessorBlock).run valued = .ok (b.accessors, left) := by
  unfold binding at h
  obtain ⟨⟨name, isPattern⟩, named, hn, h⟩ := run_bind_eq_ok.1 h
  obtain ⟨type, typed, ht, h⟩ := run_bind_eq_ok.1 h
  obtain ⟨initializer, valued, hi, h⟩ := run_bind_eq_ok.1 h
  obtain ⟨accessors, after, ha, h⟩ := run_bind_eq_ok.1 h
  obtain ⟨rfl, rfl⟩ := run_pure_eq_ok.1 h
  exact ⟨named, typed, valued, hn, ht, hi, ha⟩

theorem parameter_cases {ts left : List Token} {p : Parameter} (h : parameter.run ts = .ok (p, left)) :
    ∃ found first named second colon after typed, attributes.run ts = .ok (found, first :: named) ∧
      first.kind = .identifier ∧ p.firstName = first.text ∧
      (optionally (ε := Fault) (·.kind == .identifier) pure).run named = .ok (second, colon :: after) ∧
      p.secondName = second.map Token.text ∧ colon.kind = .colon ∧ (typeText []).run after = .ok (p.type, typed) ∧
      (optionally isAssignment fun _ => expressionText).run typed = .ok (p.defaultValue, left) := by
  unfold parameter at h
  obtain ⟨found, attributed, ha, h⟩ := run_bind_eq_ok.1 h
  obtain ⟨first, named, hf, h⟩ := run_bind_eq_ok.1 h
  obtain ⟨second, labeled, hs, h⟩ := run_bind_eq_ok.1 h
  obtain ⟨colon, after, hc, h⟩ := run_bind_eq_ok.1 h
  obtain ⟨type, typed, ht, h⟩ := run_bind_eq_ok.1 h
  obtain ⟨value, left, hv, h⟩ := run_bind_eq_ok.1 h
  obtain ⟨rfl, rfl⟩ := run_pure_eq_ok.1 h
  obtain ⟨rfl, hfirst⟩ := token_eq_ok.1 hf
  obtain ⟨rfl, hcolon⟩ := token_eq_ok.1 hc
  exact ⟨found, first, named, second, colon, after, typed, ha, hfirst, rfl, hs, rfl, hcolon, ht, hv⟩

theorem parameterUnlessClosed_cases {ts left : List Token} {found : Option Parameter}
    (h : parameterUnlessClosed.run ts = .ok (found, left)) :
    (found = none ∧ left = ts) ∨ ∃ p, found = some p ∧ parameter.run ts = .ok (p, left) := by
  unfold parameterUnlessClosed at h
  obtain ⟨closed, after, hl, h⟩ := run_bind_eq_ok.1 h
  cases hl
  split at h
  · obtain ⟨rfl, rfl⟩ := run_pure_eq_ok.1 h
    exact .inl ⟨rfl, rfl⟩
  · obtain ⟨p, after, hp, h⟩ := run_bind_eq_ok.1 h
    obtain ⟨rfl, rfl⟩ := run_pure_eq_ok.1 h
    exact .inr ⟨p, rfl, hp⟩

theorem parameterClause_cases {ts left : List Token} {ps : List Parameter} (h : parameterClause.run ts = .ok (ps, left)) :
    ∃ opener inside first after others closer, ts = opener :: inside ∧
      parameterUnlessClosed.run inside = .ok (first, after) ∧
      (whileNext (·.kind == .comma) fun _ => parameterUnlessClosed).run after = .ok (others, closer :: left) ∧
      closer.kind = .rightParen ∧ ps = (first :: others).filterMap id := by
  unfold parameterClause at h
  obtain ⟨opener, inside, ho, h⟩ := run_bind_eq_ok.1 h
  obtain ⟨first, after, hf, h⟩ := run_bind_eq_ok.1 h
  obtain ⟨others, after', hw, h⟩ := run_bind_eq_ok.1 h
  obtain ⟨closer, left, hc, h⟩ := run_bind_eq_ok.1 h
  obtain ⟨rfl, rfl⟩ := run_pure_eq_ok.1 h
  obtain ⟨rfl, -⟩ := token_eq_ok.1 ho
  obtain ⟨rfl, hcloser⟩ := token_eq_ok.1 hc
  exact ⟨opener, inside, first, after, others, closer, rfl, hf, hw, hcloser, rfl⟩

theorem signature_cases {ts left : List Token} {s : Signature} (h : function.run ts = .ok (s, left)) :
    ∃ named listing listed returning returned required found body,
      functionName.run ts = .ok ((s.name, s.isOperator), named) ∧ genericClause.run named = .ok (s.generics, listing) ∧
      parameterClause.run listing = .ok (s.parameters, listed) ∧ effects.run listed = .ok (s.effects, returning) ∧
      (optionally (·.kind == .arrow) fun _ => typeText ["where"]).run returning = .ok (s.returnType, returned) ∧
      functionRequirements.run returned = .ok (found, required) ∧
      (optionally (·.kind == .leftBrace) (group .rightBrace)).run required = .ok (body, left) ∧ s.hasBody = body.isSome := by
  unfold function at h
  obtain ⟨⟨name, isOperator⟩, named, hn, h⟩ := run_bind_eq_ok.1 h
  obtain ⟨generics, listing, hg, h⟩ := run_bind_eq_ok.1 h
  obtain ⟨parameters, listed, hp, h⟩ := run_bind_eq_ok.1 h
  obtain ⟨found, returning, he, h⟩ := run_bind_eq_ok.1 h
  obtain ⟨returnType, returned, ht, h⟩ := run_bind_eq_ok.1 h
  obtain ⟨requirements, required, hr, h⟩ := run_bind_eq_ok.1 h
  obtain ⟨body, left, hb, h⟩ := run_bind_eq_ok.1 h
  obtain ⟨rfl, rfl⟩ := run_pure_eq_ok.1 h
  exact ⟨named, listing, listed, returning, returned, required, requirements, body, hn, hg, hp, he, ht, hr, hb, rfl⟩

theorem inheritance_cases {ts left : List Token} {types : List String} (h : inheritance.run ts = .ok (types, left)) :
    (types = [] ∧ left = ts) ∨ ∃ colon more, ts = colon :: more ∧ colon.kind = .colon ∧
      (byCommas (typeText ["where"])).run more = .ok (types, left) := by
  unfold inheritance at h
  obtain ⟨found, after, hf, h⟩ := run_bind_eq_ok.1 h
  obtain ⟨rfl, rfl⟩ := run_pure_eq_ok.1 h
  rcases optionally_cases hf with ⟨-, rfl, rfl⟩ | ⟨colon, more, found, rfl, hc, hlist, rfl⟩
  · exact .inl ⟨rfl, rfl⟩
  · exact .inr ⟨colon, more, rfl, by simpa using hc, hlist⟩

/-! ### Declarations behind their heads -/

/-- A word begins a member of a type. -/
theorem members_word {t : Token} {rest left : List Token} {found : List Decl} (hk : t.kind = .identifier)
    (h : membersRun (t :: rest) = .ok (found, left)) : ∃ first after others,
      declarationRun true t rest = .ok (first, after) ∧ membersRun after = .ok (others, left) ∧
        found = first.toList ++ others := by
  obtain ⟨t', rest', he, hcases⟩ := membersRun_cases h
  obtain ⟨rfl, rfl⟩ := List.cons.inj he
  rcases hcases with ⟨hx, -⟩ | ⟨hx, -⟩ | ⟨-, -, h⟩
  · rw [hk] at hx
    cases hx
  · rw [hk] at hx
    cases hx
  · exact h

/-- What a variable is read as, behind its head. -/
theorem variable_cases {strict : Bool} {t k : Token} {more rest left : List Token} {head : Head} {found : Option Decl}
    (ht : t.kind = .identifier) (hh : (headFrom t).run (t :: more) = .ok (head, k :: rest)) (hk : k.kind = .identifier)
    (hv : k.text = "var") (h : declarationRun strict t more = .ok (found, left)) :
    ∃ bs, (byCommas binding).run rest = .ok (bs, left) ∧ found = some (.variableList head .varKeyword bs) := by
  have hi : Introducer.ofToken? k = some (.variableList .varKeyword) := introducer_variable hk hv
  have hflat := flat_cases (by simp [ht]) hh hi nofun h
  rw [flatDeclaration] at hflat
  obtain ⟨bs, after, hbs, hflat⟩ := run_bind_eq_ok.1 hflat
  obtain ⟨rfl, rfl⟩ := run_pure_eq_ok.1 hflat
  exact ⟨bs, hbs, rfl⟩

/-- What a function is read as, behind its head. -/
theorem function_cases {strict : Bool} {t k : Token} {more rest left : List Token} {head : Head} {found : Option Decl}
    (ht : t.kind = .identifier) (hh : (headFrom t).run (t :: more) = .ok (head, k :: rest)) (hk : k.kind = .identifier)
    (hv : k.text = "func") (h : declarationRun strict t more = .ok (found, left)) :
    ∃ signature, function.run rest = .ok (signature, left) ∧ found = some (.function head signature) := by
  have hflat := flat_cases (by simp [ht]) hh (introducer_function hk hv) nofun h
  rw [flatDeclaration] at hflat
  obtain ⟨signature, after, hs, hflat⟩ := run_bind_eq_ok.1 hflat
  obtain ⟨rfl, rfl⟩ := run_pure_eq_ok.1 hflat
  exact ⟨signature, hs, rfl⟩

/-! ### Other declarations -/

/-- The name of a declaration that is not described further, by the token after its keyword. -/
def nameAfter (keyword : String) : Option Token → String
  | some t => if t.kind = .identifier && !(["init", "deinit", "subscript"].contains keyword) then t.text else ""
  | none => ""

theorem otherName_eq {keyword : String} {ts vs : List Token} (hskip : afterStatement 0 true ts = vs) :
    (otherName keyword).run ts = .ok (nameAfter keyword ts.head?, vs) := by
  unfold otherName
  rw [run_bind_eq_ok]
  refine ⟨ts.head?, ts, rfl, run_bind_eq_ok.2 ⟨(), vs, by rw [← hskip]; rfl, ?_⟩⟩
  cases ts.head? <;> rfl

/-- What a declaration is read as that is not described further, behind its head. -/
theorem other_cases {strict : Bool} {t k : Token} {more rest left : List Token} {head : Head} {found : Option Decl}
    {keyword : String} (ht : t.kind = .identifier) (hh : (headFrom t).run (t :: more) = .ok (head, k :: rest))
    (hi : Introducer.ofToken? k = some (.other keyword)) (h : declarationRun strict t more = .ok (found, left)) :
    found = some (.other head keyword (nameAfter keyword rest.head?)) ∧ left = afterStatement 0 true rest := by
  have hflat := flat_cases (by simp [ht]) hh hi nofun h
  rw [flatDeclaration] at hflat
  obtain ⟨name, after, hn, hflat⟩ := run_bind_eq_ok.1 hflat
  obtain ⟨rfl, rfl⟩ := run_pure_eq_ok.1 hflat
  rw [otherName_eq rfl, Except.ok.injEq, Prod.mk.injEq] at hn
  exact ⟨by rw [hn.1], hn.2.symm⟩

end TestHooks.Swift
