import TestHooks.Declaration.OfTree
import TestHooks.Proofs.Nodes
import TestHooks.Proofs.Openings

/-!
# Blocks of accessors

Whether a block lists accessors is decided by looking ahead over the attributes and the words before the first of them.
The arguments of an attribute are not looked over, so that a block is taken for a getter if the first accessor has an
attribute with arguments. Every other list is read as it is written (`accessors_of_block`).
-/

namespace TestHooks.Swift

open TestHooks.Reader Reader

/-! ### Groups -/

/-- Tokens that close every bracket of one kind that they open, and no other. -/
inductive Nested (opener closer : TokenKind) : List Token → Prop
  | nil : Nested opener closer []
  | other {t : Token} {ts : List Token} (ho : t.kind ≠ opener) (hc : t.kind ≠ closer) (h : Nested opener closer ts) :
    Nested opener closer (t :: ts)
  | group {first last : Token} {inside ts : List Token} (ho : first.kind = opener) (hi : Nested opener closer inside)
    (hc : last.kind = closer) (h : Nested opener closer ts) : Nested opener closer (first :: (inside ++ last :: ts))

section

variable {opener closer : TokenKind}

theorem Nested.append {ts us : List Token} (h : Nested opener closer ts) (h' : Nested opener closer us) :
    Nested opener closer (ts ++ us) := by
  induction h with
  | nil => exact h'
  | other ho hc _ ih => exact .other ho hc ih
  | group ho hi hc _ _ ih =>
    rw [List.cons_append, List.append_assoc, List.cons_append]
    exact .group ho hi hc ih

theorem nested_of_kinds {ts : List Token} (h : ∀ t ∈ ts, t.kind ≠ opener ∧ t.kind ≠ closer) :
    Nested opener closer ts := by
  induction ts with
  | nil => exact .nil
  | cons t ts ih =>
    obtain ⟨ht, hts⟩ := List.forall_mem_cons.1 h
    exact .other ht.1 ht.2 (ih hts)

section

variable {t : Token} (depth : Nat) (ts : List Token)

theorem splitGroup_opener (ho : t.kind = opener) : splitGroup opener closer depth (t :: ts) =
    (splitGroup opener closer (depth + 1) ts).map fun p => (t :: p.1, p.2) := by
  rw [splitGroup.eq_def]
  simp only [ho, if_true]

theorem splitGroup_other (ho : t.kind ≠ opener) (hc : t.kind ≠ closer) : splitGroup opener closer depth (t :: ts) =
    (splitGroup opener closer depth ts).map fun p => (t :: p.1, p.2) := by
  rw [splitGroup.eq_def]
  simp only [ho, hc, if_false]

theorem splitGroup_closer (hne : opener ≠ closer) (hc : t.kind = closer) :
    splitGroup opener closer (depth + 1) (t :: ts) =
      (splitGroup opener closer depth ts).map fun p => (t :: p.1, p.2) := by
  rw [splitGroup.eq_def]
  simp only [hc, hne.symm, if_false, if_true]

theorem splitGroup_closed (hne : opener ≠ closer) (hc : t.kind = closer) :
    splitGroup opener closer 0 (t :: ts) = some ([t], ts) := by
  rw [splitGroup.eq_def]
  simp only [hc, hne.symm, if_false, if_true]

end

/-- A group goes on over nested tokens. -/
theorem Nested.split (hne : opener ≠ closer) {ts : List Token} (h : Nested opener closer ts) (depth : Nat)
    (rest : List Token) : splitGroup opener closer depth (ts ++ rest) =
      (splitGroup opener closer depth rest).map fun p => (ts ++ p.1, p.2) := by
  induction h generalizing depth rest with
  | nil => simp
  | other ho hc _ ih =>
    rw [List.cons_append, splitGroup_other depth _ ho hc, ih, Option.map_map]
    rfl
  | group ho _ hc _ ihi ih =>
    rw [List.cons_append, List.append_assoc, List.cons_append, splitGroup_opener depth _ ho, ihi,
      splitGroup_closer depth _ hne hc, ih]
    simp only [Option.map_map]
    congr 1
    funext p
    simp

theorem Nested.split_closed (hne : opener ≠ closer) {ts : List Token} (h : Nested opener closer ts) {last : Token}
    (hl : last.kind = closer) (rest : List Token) :
    splitGroup opener closer 0 (ts ++ last :: rest) = some (ts ++ [last], rest) := by
  rw [h.split hne, splitGroup_closed _ hne hl]
  rfl

end

/-- Tokens in brackets. -/
structure Bracketed (opener closer : TokenKind) where
  first : Token
  inside : List Token
  last : Token
  opens : first.kind = opener
  nests : Nested opener closer inside
  closes : last.kind = closer

namespace Bracketed

variable {opener closer : TokenKind} (g : Bracketed opener closer)

def tokens : List Token := g.first :: (g.inside ++ [g.last])

theorem read (hne : opener ≠ closer) (rest : List Token) :
    (group closer g.first).run (g.inside ++ g.last :: rest) = .ok (g.tokens, rest) := by
  simp only [group, g.opens, g.nests.split_closed hne g.closes]
  rfl

theorem nested : Nested opener closer g.tokens :=
  .group g.opens g.nests g.closes .nil

end Bracketed

theorem head_of_all {ts rest : List Token} {test : Token → Bool} (h : ∀ t ∈ ts, test t = false)
    (hr : rest.head?.any test = false) : (ts ++ rest).head?.any test = false := by
  cases ts with
  | nil => exact hr
  | cons t ts => exact h t List.mem_cons_self

theorem nested_of_words {opener closer : TokenKind} (ho : opener ≠ .identifier) (hc : closer ≠ .identifier) {ts : List Token}
    (h : ∀ t ∈ ts, t.kind = .identifier) : Nested opener closer ts :=
  nested_of_kinds fun t ht => by
    rw [h t ht]
    exact ⟨ho.symm, hc.symm⟩

/-! ### Attributes -/

/-- An attribute as it is written, with the arguments attached to it. -/
structure AttributeSpelling where
  word : Token
  arguments : Option (Bracketed .leftParen .rightParen)
  isWord : word.kind = .atWord
  isAttached : ∀ g ∈ arguments, g.first.isAttached = true
  nests : ∀ g ∈ arguments, Nested .leftBrace .rightBrace g.tokens

namespace AttributeSpelling

variable (a : AttributeSpelling)

def tokens : List Token := a.word :: a.arguments.elim [] Bracketed.tokens

def hasArguments : Bool := a.arguments.isSome

theorem nested : Nested .leftBrace .rightBrace a.tokens := by
  refine .other (by simp [a.isWord]) (by simp [a.isWord]) ?_
  cases h : a.arguments with
  | none => exact .nil
  | some g => exact a.nests g h

theorem run {rest : List Token} (hr : rest.head?.any (·.kind == .leftParen) = false) :
    ∃ found, (attributeAfter a.word).run (a.arguments.elim [] Bracketed.tokens ++ rest) = .ok (found, rest) := by
  unfold attributeAfter
  cases h : a.arguments with
  | none =>
    have hskip : rest.head?.any (fun p => p.kind == .leftParen && p.isAttached) = false := by
      cases rest with
      | nil => rfl
      | cons t ts =>
        rw [List.head?_cons, Option.any_some] at hr ⊢
        rw [hr, Bool.false_and]
    exact ⟨_, run_bind_eq_ok.2 ⟨none, rest, optionally_skip hskip, rfl⟩⟩
  | some g =>
    have htake : (g.first.kind == .leftParen && g.first.isAttached) = true := by
      rw [g.opens, a.isAttached g h]
      rfl
    have hread := g.read (by decide) rest
    refine ⟨_, run_bind_eq_ok.2 ⟨some g.tokens, rest, ?_, rfl⟩⟩
    simp only [Option.elim_some, Bracketed.tokens, List.cons_append, List.append_assoc, List.nil_append]
    exact optionally_take htake hread

end AttributeSpelling

theorem nested_attributes (as : List AttributeSpelling) :
    Nested .leftBrace .rightBrace (as.flatMap AttributeSpelling.tokens) := by
  induction as with
  | nil => exact .nil
  | cons a as ih => exact a.nested.append ih

theorem attributes_run (as : List AttributeSpelling) {rest : List Token} (hw : rest.head?.any (·.kind == .atWord) = false)
    (hp : rest.head?.any (·.kind == .leftParen) = false) :
    ∃ found, attributes.run (as.flatMap AttributeSpelling.tokens ++ rest) = .ok (found, rest) := by
  induction as with
  | nil => exact ⟨[], whileNext_skip hw⟩
  | cons a as ih =>
    obtain ⟨others, hothers⟩ := ih
    have hnext : (as.flatMap AttributeSpelling.tokens ++ rest).head?.any (·.kind == .leftParen) = false := by
      cases as with
      | nil => exact hp
      | cons b bs => simp [AttributeSpelling.tokens, b.isWord]
    obtain ⟨found, hfound⟩ := a.run hnext
    refine ⟨found :: others, ?_⟩
    rw [List.flatMap_cons, List.append_assoc, AttributeSpelling.tokens, List.cons_append]
    exact whileNextRun_step (by simp [a.isWord]) hfound hothers

/-! ### Accessors -/

/-- An accessor as it is written. A word in parentheses, or another group, may follow any accessor but `get`. -/
structure AccessorSpelling where
  attributes : List AttributeSpelling
  prefixes : List Token
  keyword : Token
  accessor : Accessor
  argument : Option (Bracketed .leftParen .rightParen)
  effects : List Token
  body : Bracketed .leftBrace .rightBrace
  isPrefix : ∀ t ∈ prefixes, t.isOneOf accessorPrefixes = true
  isNamed : accessorOf? keyword = some accessor
  isCall : argument.isSome = true → accessor ≠ .get
  nests : ∀ g ∈ argument, Nested .leftBrace .rightBrace g.tokens
  isEffect : ∀ t ∈ effects, (effectOf? t).isSome = true

theorem isOneOf_word {t : Token} {words : List String} (h : t.isOneOf words = true) : t.kind = .identifier := by
  rw [Token.isOneOf, Bool.and_eq_true, beq_iff_eq] at h
  exact h.1

theorem effectOf_identifier {t : Token} (h : (effectOf? t).isSome = true) : t.kind = .identifier := by
  unfold effectOf? at h
  split at h
  · assumption
  · cases h

/-- Effects without arguments, up to a brace. -/
theorem effects_run {es rest : List Token} (he : ∀ t ∈ es, (effectOf? t).isSome = true)
    (hr : rest.head?.any (·.kind == .leftBrace) = true) : ∃ found, Reader.effects.run (es ++ rest) = .ok (found, rest) := by
  obtain ⟨opener, more, rfl⟩ : ∃ opener more, rest = opener :: more := by
    cases rest with
    | nil => cases hr
    | cons t ts => exact ⟨t, ts, rfl⟩
  rw [List.head?_cons, Option.any_some, beq_iff_eq] at hr
  have hloop : ∃ found, whileNextRun (fun t => (effectOf? t).isSome) (fun t => do
      let _ ← optionally (·.kind == .leftParen) (group .rightParen)
      pure (effectOf? t)) (es ++ opener :: more) = .ok (found, opener :: more) := by
    induction es with
    | nil => exact ⟨[], whileNext_skip (by simp [effectOf?, hr])⟩
    | cons t es ih =>
      obtain ⟨ht, hes⟩ := List.forall_mem_cons.1 he
      obtain ⟨found, hfound⟩ := ih hes
      have hnext : (es ++ opener :: more).head?.any (·.kind == .leftParen) = false :=
        head_of_all (fun u hu => by simp [effectOf_identifier (hes u hu)]) (by simp [hr])
      exact ⟨effectOf? t :: found, whileNextRun_step ht
        (run_bind_eq_ok.2 ⟨none, _, optionally_skip hnext, rfl⟩) hfound⟩
  obtain ⟨found, hfound⟩ := hloop
  unfold Reader.effects
  exact ⟨_, run_bind_eq_ok.2 ⟨found, _, hfound, rfl⟩⟩

namespace AccessorSpelling

variable (a : AccessorSpelling)

/-- What follows the keyword. -/
def after : List Token := a.argument.elim [] Bracketed.tokens ++ (a.effects ++ a.body.tokens)

def tokens : List Token :=
  a.attributes.flatMap AttributeSpelling.tokens ++ (a.prefixes ++ a.keyword :: a.after)

/-- True if arguments of an attribute stand before the accessor. -/
def hasArguments : Bool := a.attributes.any AttributeSpelling.hasArguments

theorem isWord : a.keyword.kind = .identifier := (accessor_word a.isNamed).1

theorem words_before {test : Token → Bool} (h : ∀ t : Token, t.kind = .identifier → test t = false) (rest : List Token) :
    (a.prefixes ++ a.keyword :: rest).head?.any test = false :=
  head_of_all (fun t ht => h t (isOneOf_word (a.isPrefix t ht))) (h _ a.isWord)

theorem begins (rest : List Token) : (a.tokens ++ rest).head?.any (·.kind == .rightBrace) = false := by
  unfold tokens
  cases a.attributes with
  | nil =>
    rw [List.flatMap_nil, List.nil_append, List.append_assoc, List.cons_append]
    exact a.words_before (fun t ht => by simp [ht]) _
  | cons b bs => simp [AttributeSpelling.tokens, b.isWord]

theorem nested : Nested .leftBrace .rightBrace a.tokens := by
  have hargument : Nested .leftBrace .rightBrace (a.argument.elim [] Bracketed.tokens) := by
    cases h : a.argument with
    | none => exact .nil
    | some g => exact a.nests g h
  have hafter : Nested .leftBrace .rightBrace a.after :=
    hargument.append ((nested_of_words (by decide) (by decide) fun t ht => effectOf_identifier (a.isEffect t ht)).append
      a.body.nested)
  have hword := a.isWord
  exact (nested_attributes _).append ((nested_of_words (by decide) (by decide) fun t ht =>
    isOneOf_word (a.isPrefix t ht)).append (.other (by simp [hword]) (by simp [hword]) hafter))

/-- What may follow the keyword shows that an accessor is listed. -/
theorem lists_keyword (rest : List Token) : listsAccessors (a.keyword :: (a.after ++ rest)) = true := by
  obtain ⟨hword, hprefix, -⟩ := accessor_word a.isNamed
  have hstay : (a.keyword.kind == .atWord || a.keyword.isOneOf accessorPrefixes) = false := by
    rw [hword, hprefix]
    rfl
  rw [listsAccessors, List.dropWhile_cons, hstay]
  simp only [Bool.false_eq_true, if_false, a.isNamed]
  unfold after
  cases h : a.argument with
  | some g =>
    have hcall : a.accessor ≠ .get := a.isCall (by rw [h]; rfl)
    simp [Bracketed.tokens, g.opens, hcall]
  | none =>
    cases he : a.effects with
    | nil => simp [Bracketed.tokens, a.body.opens]
    | cons t ts =>
      have ht : t.kind = .identifier := effectOf_identifier (a.isEffect t (by rw [he]; exact List.mem_cons_self))
      simp [ht]

theorem argument_run (rest : List Token) :
    ∃ found, (optionally (·.kind == .leftParen) (group .rightParen)).run (a.after ++ rest) =
      .ok (found, a.effects ++ (a.body.tokens ++ rest)) := by
  rw [after, List.append_assoc, List.append_assoc]
  cases a.argument with
  | none =>
    have hbody : (a.body.tokens ++ rest).head?.any (·.kind == .leftParen) = false := by
      simp [Bracketed.tokens, a.body.opens]
    rw [Option.elim_none, List.nil_append]
    exact ⟨none, optionally_skip (head_of_all (fun t ht => by simp [effectOf_identifier (a.isEffect t ht)]) hbody)⟩
  | some g =>
    refine ⟨some g.tokens, ?_⟩
    simp only [Option.elim_some, Bracketed.tokens, List.cons_append, List.append_assoc, List.nil_append]
    exact optionally_take (by simp [g.opens]) (g.read (by decide) _)

/-- An accessor is read up to the end of its body, whatever follows. -/
theorem run (rest : List Token) : Reader.accessor.run (a.tokens ++ rest) = .ok (a.accessor, rest) := by
  obtain ⟨hword, hprefix, -⟩ := accessor_word a.isNamed
  have hbefore {test : Token → Bool} (h : ∀ t : Token, t.kind = .identifier → test t = false) :=
    a.words_before h (a.after ++ rest)
  obtain ⟨found, hattributes⟩ := attributes_run a.attributes (hbefore fun t ht => by simp [ht])
    (hbefore fun t ht => by simp [ht])
  have hprefixes : (skipWhile (·.isOneOf accessorPrefixes) : Reader Unit).run
      (a.prefixes ++ a.keyword :: (a.after ++ rest)) = .ok ((), a.keyword :: (a.after ++ rest)) := by
    simp only [skipWhile, List.dropWhile_append_of_pos a.isPrefix, List.dropWhile_cons, hprefix]
    rfl
  have hnamed : (accessorNamed a.keyword).run (a.after ++ rest) = .ok (a.accessor, a.after ++ rest) := by
    rw [accessorNamed, a.isNamed]
    rfl
  have hbody : (a.body.tokens ++ rest).head?.any (·.kind == .leftBrace) = true := by simp [Bracketed.tokens, a.body.opens]
  obtain ⟨argument, hargument⟩ := a.argument_run rest
  obtain ⟨effects, heffects⟩ := effects_run a.isEffect hbody
  have hgroup : (optionally (·.kind == .leftBrace) (group .rightBrace)).run (a.body.tokens ++ rest) =
      .ok (some a.body.tokens, rest) := by
    have hread := a.body.read (by decide) rest
    simp only [Bracketed.tokens, List.cons_append, List.append_assoc, List.nil_append] at hread ⊢
    exact optionally_take (by simp [a.body.opens]) hread
  unfold Reader.accessor tokens
  rw [List.append_assoc, List.append_assoc, List.cons_append, run_bind_eq_ok]
  exact ⟨_, _, hattributes, run_bind_eq_ok.2 ⟨_, _, hprefixes, run_bind_eq_ok.2 ⟨_, _, token_eq_ok.2 ⟨rfl, hword⟩,
    run_bind_eq_ok.2 ⟨_, _, hnamed, run_bind_eq_ok.2 ⟨_, _, hargument, run_bind_eq_ok.2 ⟨_, _, heffects,
      run_bind_eq_ok.2 ⟨_, _, hgroup, rfl⟩⟩⟩⟩⟩⟩⟩

end AccessorSpelling

/-! ### The look ahead -/

theorem listsAccessors_pass {t : Token} (h : (t.kind == .atWord || t.isOneOf accessorPrefixes) = true) (ts : List Token) :
    listsAccessors (t :: ts) = listsAccessors ts := by
  rw [listsAccessors, List.dropWhile_cons, if_pos h]
  rfl

theorem listsAccessors_stop {t : Token} (h : t.kind = .leftParen) (ts : List Token) :
    listsAccessors (t :: ts) = false := by
  have hstay : (t.kind == .atWord || t.isOneOf accessorPrefixes) = false := by
    rw [Token.isOneOf, h]
    rfl
  rw [listsAccessors, List.dropWhile_cons, hstay]
  simp [accessorOf?, h]

/-- The look ahead goes on over attributes up to the first that has arguments. -/
theorem lists_attributes (as : List AttributeSpelling) (rest : List Token) :
    listsAccessors (as.flatMap AttributeSpelling.tokens ++ rest) =
      (!as.any AttributeSpelling.hasArguments && listsAccessors rest) := by
  induction as with
  | nil => rfl
  | cons a as ih =>
    rw [List.flatMap_cons, List.append_assoc, AttributeSpelling.tokens, List.cons_append,
      listsAccessors_pass (by simp [a.isWord]), List.any_cons, AttributeSpelling.hasArguments]
    cases a.arguments with
    | none => simpa using ih
    | some g => simpa [Bracketed.tokens] using listsAccessors_stop g.opens _

theorem lists_prefixes {ps : List Token} (h : ∀ t ∈ ps, t.isOneOf accessorPrefixes = true) (rest : List Token) :
    listsAccessors (ps ++ rest) = listsAccessors rest := by
  induction ps with
  | nil => rfl
  | cons t ps ih =>
    obtain ⟨ht, hps⟩ := List.forall_mem_cons.1 h
    rw [List.cons_append, listsAccessors_pass (by simp [ht]), ih hps]

/-- A block is seen to list accessors unless an attribute before the first has arguments. -/
theorem AccessorSpelling.lists (a : AccessorSpelling) (rest : List Token) :
    listsAccessors (a.tokens ++ rest) = !a.hasArguments := by
  rw [tokens, List.append_assoc, List.append_assoc, List.cons_append, lists_attributes, lists_prefixes a.isPrefix,
    a.lists_keyword, Bool.and_true]
  rfl

/-! ### Blocks -/

/-- A block that lists accessors. -/
structure BlockSpelling where
  opener : Token
  first : AccessorSpelling
  others : List AccessorSpelling
  closer : Token
  opens : opener.kind = .leftBrace
  closes : closer.kind = .rightBrace

namespace BlockSpelling

variable (b : BlockSpelling)

/-- The tokens between the braces. -/
def inside : List Token := (b.first :: b.others).flatMap AccessorSpelling.tokens

def listed : List Accessor := (b.first :: b.others).map AccessorSpelling.accessor

/-- The accessors that the block is read as. -/
def found : List Accessor := if b.first.hasArguments then [.get] else b.listed

theorem nested : Nested .leftBrace .rightBrace b.inside := by
  unfold inside
  induction b.first :: b.others with
  | nil => exact .nil
  | cons a as ih => exact a.nested.append ih

theorem accessors_run (as : List AccessorSpelling) {closer : Token} (hk : closer.kind = .rightBrace) (rest : List Token) :
    untilNextRun (·.kind == .rightBrace) accessor strict_accessor
      (as.flatMap AccessorSpelling.tokens ++ closer :: rest) = .ok (as.map AccessorSpelling.accessor, closer :: rest) := by
  induction as with
  | nil =>
    rw [List.flatMap_nil, List.nil_append, untilNextRun_eq, if_pos (by simp [hk])]
    rfl
  | cons a as ih =>
    rw [List.flatMap_cons, List.append_assoc]
    exact untilNextRun_step (a.begins _) (a.run _) ih

/-- A block is read through its closing brace in either way. -/
theorem run (rest : List Token) : (accessorBlock b.opener).run (b.inside ++ b.closer :: rest) = .ok (b.found, rest) := by
  have hlook : listsAccessors (b.inside ++ b.closer :: rest) = !b.first.hasArguments := by
    rw [inside, List.flatMap_cons, List.append_assoc, b.first.lists]
  unfold accessorBlock
  rw [run_bind_eq_ok]
  refine ⟨!b.first.hasArguments, _, by rw [← hlook]; rfl, ?_⟩
  unfold found
  cases b.first.hasArguments with
  | false =>
    rw [Bool.not_false, if_pos rfl, if_neg Bool.false_ne_true]
    unfold listedAccessors
    exact run_bind_eq_ok.2 ⟨_, _, accessors_run _ b.closes rest, run_bind_eq_ok.2
      ⟨b.closer, rest, token_eq_ok.2 ⟨rfl, b.closes⟩, rfl⟩⟩
  | true =>
    rw [Bool.not_true, if_neg Bool.false_ne_true, if_pos rfl]
    have hread := Bracketed.read ⟨b.opener, b.inside, b.closer, b.opens, b.nested, b.closes⟩ (by decide) rest
    exact run_bind_eq_ok.2 ⟨_, rest, hread, rfl⟩

theorem found_eq_listed : b.found = b.listed ↔ (b.first.hasArguments = true → b.listed = [.get]) := by
  unfold found
  cases b.first.hasArguments with
  | false => simp
  | true => simpa using eq_comm

theorem found_setter : b.found.any Accessor.isSetter = (!b.first.hasArguments && b.listed.any Accessor.isSetter) := by
  unfold found
  cases b.first.hasArguments <;> rfl

end BlockSpelling

/-! ### Variables -/

/-- A variable with a type and a block of accessors. -/
structure VariableSpelling where
  keyword : Token
  name : Token
  colon : Token
  type : List Token
  block : BlockSpelling
  isKeyword : keyword.isIdentifier "var" = true
  isName : name.kind = .identifier
  isColon : colon.kind = .colon
  isType : type ≠ [] ∧ splitType [] 0 none (type ++ [block.opener]) = (type, [block.opener])

namespace VariableSpelling

variable (v : VariableSpelling)

/-- What follows the keyword. -/
def after : List Token :=
  v.name :: v.colon :: (v.type ++ v.block.opener :: (v.block.inside ++ [v.block.closer]))

def binding : Binding := ⟨v.name.text, some (phrase v.type), none, some v.block.found, false⟩

def decl : Decl := .variableList ⟨[], [], v.keyword.position⟩ .varKeyword [v.binding]

theorem run (rest : List Token) : Reader.binding.run (v.after ++ rest) = .ok (v.binding, rest) := by
  obtain ⟨t, taken, htype⟩ := List.exists_cons_of_ne_nil v.isType.1
  have hsplit := splitType_extends v.isType.2 (List.cons_ne_nil _ _) (v.block.inside ++ v.block.closer :: rest)
  rw [List.append_assoc, List.singleton_append] at hsplit
  have hphrase : (typeText []).run (v.type ++ v.block.opener :: (v.block.inside ++ v.block.closer :: rest)) =
      .ok (phrase v.type, v.block.opener :: (v.block.inside ++ v.block.closer :: rest)) :=
    phraseBy_eq_ok.2 ⟨t, taken, by rw [hsplit, htype], by rw [htype]⟩
  have hassign : isAssignment v.block.opener = false := by rw [isAssignment, v.block.opens]; rfl
  unfold Reader.binding after
  simp only [List.cons_append, List.append_assoc, List.nil_append]
  rw [run_bind_eq_ok]
  refine ⟨_, _, bindingName_word v.isName _, run_bind_eq_ok.2 ⟨some (phrase v.type), _,
    optionally_take (by simp [v.isColon]) hphrase, run_bind_eq_ok.2 ⟨none, _, optionally_skip (by simp [hassign]),
      run_bind_eq_ok.2 ⟨some v.block.found, rest, optionally_take (by simp [v.block.opens]) (v.block.run rest), rfl⟩⟩⟩⟩

/-- Wherever a declaration may stand, the variable is read as one with the accessors found. -/
theorem declares (strict : Bool) {rest : List Token} (hr : rest.head?.any (·.kind == .comma) = false) :
    declarationRun strict v.keyword (v.after ++ rest) = .ok (some v.decl, rest) := by
  have hkeyword := v.isKeyword
  simp only [Token.isIdentifier, Bool.and_eq_true, beq_iff_eq] at hkeyword
  obtain ⟨hword, htext⟩ := hkeyword
  have hhead := headFrom_word hword (by rw [htext]; decide) (v.after ++ rest)
  have hi : Introducer.ofToken? v.keyword = some (.variableList .varKeyword) := introducer_variable hword htext
  refine declarationRun_flat (by simp [hword]) hhead (fun keyword => by simp [hi]) ?_
  rw [hi, flatDeclaration, run_bind_eq_ok]
  exact ⟨_, _, byCommas_one (v.run rest) hr, rfl⟩

/-- After lowering, the variable has a setter if one of the accessors found is one. -/
theorem lowered (h : phrase v.type ≠ "") : membersOfDecl v.decl =
    [.property ⟨v.name.text, some (phrase v.type), v.block.found.any Accessor.isSetter, [], none,
      some v.keyword.position⟩] := by
  have hsome : nonEmpty? (some (phrase v.type)) = some (phrase v.type) := by
    simp [nonEmpty?, Option.filter, h]
  simp [decl, binding, membersOfDecl, membersOfBindings, bindingTypes, hsome, memberOfBinding, propertyWrapper?, hasSetter,
    Head.modifierNames]

end VariableSpelling

/-! ### Files -/

/-- What follows the members read does not begin with a comma. -/
theorem members_no_comma {ts left : List Token} {ms : List Decl} (h : membersRun ts = .ok (ms, left)) :
    ts.head?.any (·.kind == .comma) = false := by
  obtain ⟨t, rest, rfl, hcases⟩ := membersRun_cases h
  rw [List.head?_cons, Option.any_some, beq_eq_false_iff_ne]
  intro hk
  rcases hcases with ⟨hx, -⟩ | ⟨hx, -⟩ | ⟨-, -, first, after, others, hd, -, -⟩
  · rw [hk] at hx
    cases hx
  · rw [hk] at hx
    cases hx
  have hnone : attributes.run (t :: rest) = .ok ([], t :: rest) := whileNext_skip (by simp [hk])
  have hsplit : splitModifiers (t :: rest) = ([], t :: rest) := by
    rw [splitModifiers, if_neg (by simp [Token.isOneOf, hk])]
  have hhead : (headFrom t).run (t :: rest) = .ok (⟨[], [], t.position⟩, t :: rest) :=
    run_bind_eq_ok.2 ⟨_, _, hnone, run_bind_eq_ok.2 ⟨_, _, congrArg Except.ok hsplit, rfl⟩⟩
  have hi : Introducer.ofToken? t = none := by rw [Introducer.ofToken?, hk]; rfl
  have hflat := flat_cases (by simp [hk]) hhead hi (by simp) hd
  rcases flatDeclaration_cases hflat with ⟨_, _, hx, -⟩ | ⟨_, hx, -⟩ | ⟨_, _, hx, -⟩ | ⟨-, hx, -⟩ <;> cases hx

/-- A block of accessors at the head of a type is read, as one list if no arguments of an attribute stand before its
first accessor, and as a getter otherwise. So the accessors are those listed if and only if there are no such arguments
or a getter alone is listed, and the property has a setter if and only if one is listed and there are none. -/
theorem accessors_of_block {text : String} {keyword : TypeKeyword} {k n o : Token} {v : VariableSpelling}
    {rest : List Token} {ms : List Decl} (hf : (Tokens.ofText text).failure = none)
    (ht : (Tokens.ofText text).tokens = k :: n :: o :: v.keyword :: (v.after ++ rest))
    (hk : k.isIdentifier keyword.text = true) (hx : keyword ≠ .extensionType) (hn : n.kind = .identifier)
    (hm : modifiesMember [n] = false) (ho : o.kind = .leftBrace) (hr : membersRun rest = .ok (ms, [])) :
    parse text = .ok [.group ⟨[], [], k.position⟩ ⟨keyword, n.text, none, []⟩ (v.decl :: ms)] ∧
      (v.block.found = v.block.listed ↔ (v.block.first.hasArguments = true → v.block.listed = [.get])) ∧
      membersOfDecl v.decl = [.property ⟨v.name.text, some (phrase v.type),
        !v.block.first.hasArguments && v.block.listed.any Accessor.isSetter, [], none, some v.keyword.position⟩] := by
  have hkeyword := v.isKeyword
  simp only [Token.isIdentifier, Bool.and_eq_true, beq_iff_eq] at hkeyword hk
  refine ⟨?_, v.block.found_eq_listed, ?_⟩
  · have hmembers := membersRun_member (by simp [hkeyword.1]) (by simp [hkeyword.1])
      (v.declares true (members_no_comma hr)) hr
    have hgroup : declarationRun false k (n :: o :: v.keyword :: (v.after ++ rest)) =
        .ok (some (.group ⟨[], [], k.position⟩ ⟨keyword, n.text, none, []⟩ (v.decl :: ms)), []) :=
      declarationRun_group (by simp [hk.1]) (headFrom_type hk.1 hk.2 hm _) (introducer_type hk.1 hk.2)
        (typeHeader_named hx hn ho _) hmembers
    unfold parse
    simp only [hf]
    rw [ht, topLevel_declaration (by simp [hk.1]) (by simp [hk.1]) hgroup, topLevel]
    rfl
  · rw [v.lowered, v.block.found_setter]
    obtain ⟨t, taken, htype⟩ := List.exists_cons_of_ne_nil v.isType.1
    have hmem : t ∈ (Tokens.ofText text).tokens := by
      rw [ht, VariableSpelling.after, htype]
      simp
    obtain ⟨place, gap, es, after, htokens, hfit⟩ := scanned_ofText text
    rw [htokens] at hmem
    rw [htype]
    exact phrase_ne_empty (Token.lexed_of_mem hfit hmem).text_ne_empty

/-- A token on the first line. -/
def inLine (kind : TokenKind) (text gap : String) (offset : Nat) : Token :=
  ⟨kind, text, gap, ⟨⟨1, offset + 1⟩, offset⟩⟩

def plainGetter : AccessorSpelling where
  attributes := []
  prefixes := []
  keyword := inLine .identifier "get" " " 22
  accessor := .get
  argument := none
  effects := []
  body := ⟨inLine .leftBrace "\x7b" " " 26, [], inLine .rightBrace "\x7d" " " 28, rfl, .nil, rfl⟩
  isPrefix := nofun
  isNamed := by decide
  isCall := nofun
  nests _ h := nomatch h
  isEffect := nofun

def attributeWithArgument : AttributeSpelling where
  word := inLine .atWord "@objc" " " 30
  arguments := some ⟨inLine .leftParen "(" "" 35, [inLine .identifier "y" "" 36], inLine .rightParen ")" "" 37, rfl,
    .other (by decide) (by decide) .nil, rfl⟩
  isWord := rfl
  isAttached := by decide
  nests := by
    rintro g ⟨⟩
    exact nested_of_kinds (by decide)

def namedSetter : AccessorSpelling where
  attributes := [attributeWithArgument]
  prefixes := []
  keyword := inLine .identifier "set" " " 39
  accessor := .set
  argument := some ⟨inLine .leftParen "(" "" 42, [inLine .identifier "v" "" 43], inLine .rightParen ")" "" 44, rfl,
    .other (by decide) (by decide) .nil, rfl⟩
  effects := []
  body := ⟨inLine .leftBrace "\x7b" " " 46, [], inLine .rightBrace "\x7d" " " 48, rfl, .nil, rfl⟩
  isPrefix := nofun
  isNamed := by decide
  isCall := by decide
  nests := by
    rintro g ⟨⟩
    exact nested_of_kinds (by decide)
  isEffect := nofun

def listedVariable : VariableSpelling where
  keyword := inLine .identifier "var" " " 11
  name := inLine .identifier "x" " " 15
  colon := inLine .colon ":" "" 16
  type := [inLine .identifier "T" " " 18]
  block := ⟨inLine .leftBrace "\x7b" " " 20, plainGetter, [namedSetter], inLine .rightBrace "\x7d" " " 50, rfl, rfl⟩
  isKeyword := by decide
  isName := rfl
  isColon := rfl
  isType := by decide

/-- A property whose second accessor has an attribute with an argument. -/
def listedText : String := "struct A \x7b var x: T \x7b get \x7b \x7d @objc(y) set(v) \x7b \x7d \x7d \x7d"

theorem listed_read : ∃ ds, parse listedText = .ok ds ∧
    listedVariable.block.found = [.get, .set] ∧ membersOfDecl listedVariable.decl =
      [.property ⟨"x", some "T", true, [], none, some ⟨1, 12⟩⟩] := by
  have htokens : (Tokens.ofText listedText).tokens =
      inLine .identifier "struct" "" 0 :: inLine .identifier "A" " " 7 :: inLine .leftBrace "\x7b" " " 9 :: listedVariable.keyword ::
        (listedVariable.after ++ [inLine .rightBrace "\x7d" " " 52]) := by
    decide +kernel
  have hclose : membersRun [inLine .rightBrace "\x7d" " " 52] = .ok ([], []) := membersRun_close rfl
  obtain ⟨hparse, -, hmembers⟩ := @accessors_of_block _ .structType _ _ _ _ _ _ (by decide +kernel) htokens (by decide)
    (by decide) rfl (by decide) rfl hclose
  refine ⟨_, hparse, rfl, ?_⟩
  rw [hmembers]
  decide +kernel

/-- The accessors of each variable that has a block of them. -/
def Decl.accessorLists : Decl → List (List Accessor)
  | .variableList _ _ bindings => bindings.filterMap Binding.accessors
  | _ => []

/-- A list whose first accessor has an attribute with arguments. -/
def shadowedText : String :=
  "class A \x7b\n    var x: Int \x7b\n        @available(iOS 15, *) get \x7b 0 \x7d\n        set \x7b \x7d\n    \x7d\n\x7d"

/-- The setter is not seen: the block is read as a getter, and the property has no setter. -/
theorem arguments_hide_accessors :
    (Tokens.ofText shadowedText).tokens.map Token.text = ["class", "A", "\x7b", "var", "x", ":", "Int", "\x7b", "@available",
      "(", "iOS", "15", ",", "*", ")", "get", "\x7b", "0", "\x7d", "set", "\x7b", "\x7d", "\x7d", "\x7d"] ∧
    ∃ ds, parse shadowedText = .ok ds ∧ (nodesAmong ds).flatMap Decl.accessorLists = [[.get]] ∧
      .property ⟨"x", some "Int", false, [], none, some ⟨2, 5⟩⟩ ∈ (nodesAmong ds).flatMap membersOfDecl := by
  have h : (parse shadowedText).toOption.any (fun ds => (nodesAmong ds).flatMap Decl.accessorLists == [[.get]] &&
      ((nodesAmong ds).flatMap membersOfDecl).contains
        (.property ⟨"x", some "Int", false, [], none, some ⟨2, 5⟩⟩)) = true := by
    decide +kernel
  obtain ⟨ds, hds, hfacts⟩ := exists_ok h
  rw [Bool.and_eq_true, beq_iff_eq, List.contains_iff_mem] at hfacts
  exact ⟨by decide +kernel, ds, hds, hfacts⟩

end TestHooks.Swift
