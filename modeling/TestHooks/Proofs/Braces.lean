import TestHooks.Proofs.Attributes
import TestHooks.Proofs.Balance

/-!
# Braces of files

Which phrases are passed over while a file is read, declaration by declaration, and that the braces of the file are
those of these phrases and others that are balanced (`braces_of_parse`). A phrase need not be balanced: a brace that a
statement leaves open takes all that follows with it, annotated types too (`unclosed_swallows`).
-/

namespace TestHooks.Swift

open TestHooks.Reader Reader

/-! ### Phrases of declarations -/

mutual

/-- The declaration that begins with a token passes over the phrases. Of a statement everything is passed over. -/
inductive DeclarationPasses : Bool → Token → List Token → List (List Token) → Prop
  | conditional {strict : Bool} {t : Token} {ts : List Token} {rs : List (List Token)} (hk : t.kind = .hashWord)
    (ht : t.text = "#if") (hc : ClausesPass strict t t .ifClause ts rs) : DeclarationPasses strict t ts rs
  | directive {strict : Bool} {t : Token} {ts : List Token} {rs : List (List Token)} (hk : t.kind = .hashWord)
    (ht : t.text ≠ "#if") (hd : Passes (directive t) ts rs) : DeclarationPasses strict t ts rs
  | group {strict : Bool} {t k : Token} {ts rest inside : List Token} {head : Head} {keyword : TypeKeyword}
    {header : TypeHeader} {rs rs' rs'' : List (List Token)} (hk : t.kind ≠ .hashWord)
    (hh : (headFrom t).run (t :: ts) = .ok (head, k :: rest)) (hp : Passes (headFrom t) (t :: ts) rs)
    (hi : Introducer.ofToken? k = some (.type keyword)) (ht : (typeHeader keyword).run rest = .ok (header, inside))
    (hp' : Passes (typeHeader keyword) rest rs') (hm : MembersPass inside rs'') :
    DeclarationPasses strict t ts (rs ++ (rs' ++ rs''))
  | flat {strict : Bool} {t k : Token} {ts rest : List Token} {head : Head} {introducer : Introducer}
    {rs rs' : List (List Token)} (hk : t.kind ≠ .hashWord) (hh : (headFrom t).run (t :: ts) = .ok (head, k :: rest))
    (hp : Passes (headFrom t) (t :: ts) rs) (hi : Introducer.ofToken? k = some introducer)
    (hf : Passes (flatDeclaration strict head k (some introducer)) rest rs') : DeclarationPasses strict t ts (rs ++ rs')
  | statement {t : Token} {ts taken left : List Token} (hk : t.kind ≠ .hashWord) (hi : Introducer.ofToken? t = none)
    (hs : declarationRun false t ts = .ok (none, left)) (ht : taken ++ left = t :: ts) :
    DeclarationPasses false t ts [taken]

inductive MembersPass : List Token → List (List Token) → Prop
  | close {t : Token} (ts : List Token) (hk : t.kind = .rightBrace) : MembersPass (t :: ts) []
  | semicolon {t : Token} {ts : List Token} {rs : List (List Token)} (hk : t.kind = .semicolon)
    (hm : MembersPass ts rs) : MembersPass (t :: ts) rs
  | member {t : Token} {ts after : List Token} {found : Option Decl} {rs rs' : List (List Token)}
    (hb : t.kind ≠ .rightBrace) (hs : t.kind ≠ .semicolon) (hd : DeclarationPasses true t ts rs)
    (hr : declarationRun true t ts = .ok (found, after)) (hm : MembersPass after rs') : MembersPass (t :: ts) (rs ++ rs')

/-- The condition of a clause is passed over. -/
inductive ClausesPass : Bool → Token → Token → ClauseKeyword → List Token → List (List Token) → Prop
  | finish {strict : Bool} {start mark t : Token} {keyword : ClauseKeyword} {ts inside left : List Token}
    {condition : String} {ms : List Decl} {rs rs' : List (List Token)}
    (hc : (clauseCondition keyword mark).run ts = .ok (condition, inside))
    (hp : Passes (clauseCondition keyword mark) ts rs)
    (hr : clauseMembersRun strict start inside = .ok ((ms, t, .finish), left))
    (hm : ClauseMembersPass strict start inside rs') : ClausesPass strict start mark keyword ts (rs ++ rs')
  | next {strict : Bool} {start mark t : Token} {keyword keyword' : ClauseKeyword} {ts inside after : List Token}
    {condition : String} {ms : List Decl} {rs rs' rs'' : List (List Token)}
    (hc : (clauseCondition keyword mark).run ts = .ok (condition, inside))
    (hp : Passes (clauseCondition keyword mark) ts rs)
    (hr : clauseMembersRun strict start inside = .ok ((ms, t, .next keyword'), after))
    (hm : ClauseMembersPass strict start inside rs') (ho : ClausesPass strict start t keyword' after rs'') :
    ClausesPass strict start mark keyword ts (rs ++ rs' ++ rs'')

inductive ClauseMembersPass : Bool → Token → List Token → List (List Token) → Prop
  | mark {strict : Bool} {start t : Token} {m : ClauseMark} (ts : List Token) (hm : clauseMark? t = some m) :
    ClauseMembersPass strict start (t :: ts) []
  | semicolon {strict : Bool} {start t : Token} {ts : List Token} {rs : List (List Token)} (hn : clauseMark? t = none)
    (hk : t.kind = .semicolon) (hm : ClauseMembersPass strict start ts rs) : ClauseMembersPass strict start (t :: ts) rs
  | member {strict : Bool} {start t : Token} {ts after : List Token} {found : Option Decl} {rs rs' : List (List Token)}
    (hn : clauseMark? t = none) (hs : t.kind ≠ .semicolon) (hb : t.kind ≠ .rightBrace)
    (hd : DeclarationPasses strict t ts rs) (hr : declarationRun strict t ts = .ok (found, after))
    (hm : ClauseMembersPass strict start after rs') : ClauseMembersPass strict start (t :: ts) (rs ++ rs')

end

/-- The phrases that are passed over at the top of a file. -/
inductive FilePasses : List Token → List (List Token) → Prop
  | finish : FilePasses [] []
  | semicolon {t : Token} {ts : List Token} {rs : List (List Token)} (hk : t.kind = .semicolon)
    (hf : FilePasses ts rs) : FilePasses (t :: ts) rs
  | declaration {t : Token} {ts after : List Token} {found : Option Decl} {rs rs' : List (List Token)}
    (hs : t.kind ≠ .semicolon) (hb : t.kind ≠ .rightBrace) (hd : DeclarationPasses false t ts rs)
    (hr : declarationRun false t ts = .ok (found, after)) (hf : FilePasses after rs') : FilePasses (t :: ts) (rs ++ rs')

/-! ### Braces outside the phrases -/

theorem counted_clauseCondition (keyword : ClauseKeyword) (t : Token) : Counted (clauseCondition keyword t) := by
  unfold clauseCondition
  split
  · exact counted_pure _
  · exact counted_of_skimming (.condition t)

theorem counted_flatDeclaration (strict : Bool) (head : Head) (k : Token) {introducer : Introducer}
    (h : ∀ keyword, introducer ≠ .type keyword) : Counted (flatDeclaration strict head k (some introducer)) := by
  cases introducer with
  | type keyword => exact absurd rfl (h keyword)
  | variableList keyword => exact (counted_byCommas counted_binding).bind fun _ => counted_pure _
  | function => exact counted_function.bind fun _ => counted_pure _
  | other keyword => exact (counted_otherName keyword).bind fun _ => counted_pure _

theorem braceless_of_introducer {k : Token} {introducer : Introducer} (h : Introducer.ofToken? k = some introducer) :
    k.braceless = true := by
  by_cases hk : k.kind = .identifier
  · simp [Token.braceless, hk]
  · rw [Introducer.ofToken?, if_pos (by simpa using hk)] at h
    cases h

theorem braceless_of_hashWord {t : Token} (h : t.kind = .hashWord) : t.braceless = true := by
  simp [Token.braceless, h]

theorem braceless_of_semicolon {t : Token} (h : t.kind = .semicolon) : t.braceless = true := by
  simp [Token.braceless, h]

theorem braceless_of_clauseMark {t : Token} {m : ClauseMark} (h : clauseMark? t = some m) : t.braceless = true := by
  unfold clauseMark? at h
  split at h
  · cases h
  · next hk =>
    simp only [bne_iff_ne, ne_eq, Decidable.not_not] at hk
    exact braceless_of_hashWord hk

theorem whileNext_nil {test : Token → Bool} {α : Type} {p : Token → Reader α} {ts rest : List Token}
    (h : (whileNext test p).run ts = .ok ([], rest)) : rest = ts := by
  change whileNextRun test p ts = .ok ([], rest) at h
  unfold whileNextRun at h
  split at h
  · cases h
    rfl
  · split at h
    · split at h
      · split at h <;> cases h
      · cases h
    · cases h
      rfl

theorem splitModifiers_nil {ts rest : List Token} (h : splitModifiers ts = ([], rest)) : rest = ts := by
  cases ts with
  | nil =>
    rw [splitModifiers] at h
    cases h
    rfl
  | cons t ts =>
    rw [splitModifiers] at h
    split at h <;> cases h
    rfl

/-- Without a keyword there is only a statement, and nothing stands before it. -/
theorem statement_of_flat {strict : Bool} {t k : Token} {ts rest left : List Token} {head : Head} {found : Option Decl}
    (hh : (headFrom t).run (t :: ts) = .ok (head, k :: rest)) (hi : Introducer.ofToken? k = none)
    (hf : (flatDeclaration strict head k none).run rest = .ok (found, left)) :
    strict = false ∧ found = none ∧ k = t ∧ left <:+ ts := by
  rcases flatDeclaration_cases hf with ⟨_, _, h, -⟩ | ⟨_, h, -⟩ | ⟨_, _, h, -⟩ | ⟨-, hs, ha, hm, hfound, hl⟩
  · cases h
  · cases h
  · cases h
  · obtain ⟨after, hattributes, hmodifiers, -⟩ := headFrom_cases hh
    rw [ha] at hattributes
    rw [hm] at hmodifiers
    cases whileNext_nil hattributes
    cases splitModifiers_nil hmodifiers
    rw [hl]
    exact ⟨hs, hfound, rfl, afterStatement_suffix _ _ _⟩

/-- Each step of reading keeps the count of braces. -/
def bracesInvariant : ReadingInvariant where
  declared strict t ts _ left :=
    ∃ taken rs, taken ++ left = t :: ts ∧ DeclarationPasses strict t ts rs ∧ Accounts taken rs
  listed ts _ left :=
    ∃ taken k rs, taken ++ k :: left = ts ∧ k.kind = .rightBrace ∧ MembersPass ts rs ∧ Accounts taken rs
  divided strict start mark keyword ts _ left :=
    ∃ taken rs, taken ++ left = ts ∧ ClausesPass strict start mark keyword ts rs ∧ Accounts taken rs
  enclosed strict start ts _ _ left :=
    ∃ taken rs, taken ++ left = ts ∧ ClauseMembersPass strict start ts rs ∧ Accounts taken rs
  conditional {strict t ts cs left} hk ht _ hd := by
    obtain ⟨taken, rs, rfl, hpass, haccounts⟩ := hd
    exact ⟨t :: taken, rs, rfl, .conditional hk ht hpass, haccounts.cons (braceless_of_hashWord hk)⟩
  directive {strict t ts left} hk ht hd := by
    obtain ⟨taken, rs, rfl, hpass, haccounts⟩ := counted_directive t hd
    exact ⟨t :: taken, rs, rfl, .directive hk ht hpass, haccounts.cons (braceless_of_hashWord hk)⟩
  group {strict t ts head k rest keyword header inside ms left} hk hh hi ht _ hl := by
    obtain ⟨front, rs, hfront, hpass, haccounts⟩ := counted_headFrom t hh
    obtain ⟨named, o, rs', rfl, ho, hpass', haccounts'⟩ := countedTo_typeHeader keyword ht
    obtain ⟨taken, c, rs'', rfl, hc, hpass'', haccounts''⟩ := hl
    refine ⟨front ++ (k :: named ++ (o :: taken ++ [c])), rs ++ (rs' ++ rs''), ?_, .group hk hh hpass hi ht hpass' hpass'',
      haccounts.append ((haccounts'.cons (braceless_of_introducer hi)).append (haccounts''.block ho hc))⟩
    rw [← hfront]
    simp
  flat {strict t ts head k rest found left} hk hh hi hf := by
    cases hintroducer : Introducer.ofToken? k with
    | none =>
      rw [hintroducer] at hf
      obtain ⟨rfl, rfl, rfl, hl⟩ := statement_of_flat hh hintroducer hf
      obtain ⟨taken, rfl⟩ := hl
      refine ⟨k :: taken, [k :: taken], rfl, .statement hk hintroducer ?_ rfl, accounts_self _⟩
      exact declarationRun_flat hk hh hi (by rwa [hintroducer])
    | some introducer =>
      obtain ⟨front, rs, hfront, hpass, haccounts⟩ := counted_headFrom t hh
      rw [hintroducer] at hf hi
      obtain ⟨taken, rs', rfl, hpass', haccounts'⟩ :=
        counted_flatDeclaration strict head k (fun keyword he => hi keyword (congrArg some he)) hf
      refine ⟨front ++ k :: taken, rs ++ rs', ?_, .flat hk hh hpass hintroducer hpass',
        haccounts.append (haccounts'.cons (braceless_of_introducer hintroducer))⟩
      rw [← hfront]
      simp
  close {t rest} hk := ⟨[], t, [], rfl, hk, .close rest hk, accounts_of_braceless (by simp)⟩
  semicolon {t rest ms left} hk hl := by
    obtain ⟨taken, k, rs, rfl, hc, hpass, haccounts⟩ := hl
    exact ⟨t :: taken, k, rs, rfl, hc, .semicolon hk hpass, haccounts.cons (braceless_of_semicolon hk)⟩
  member {t rest first after others left} hb hs hr hd _ hl := by
    obtain ⟨taken, rs, ht, hpass, haccounts⟩ := hd
    obtain ⟨taken', k, rs', rfl, hc, hpass', haccounts'⟩ := hl
    refine ⟨taken ++ taken', k, rs ++ rs', ?_, hc, .member hb hs hpass hr hpass', haccounts.append haccounts'⟩
    rw [List.append_assoc, ht]
  finish {strict start mark keyword ts condition inside ms t left} hc hr hm := by
    obtain ⟨front, rs, rfl, hpass, haccounts⟩ := counted_clauseCondition keyword mark hc
    obtain ⟨taken, rs', rfl, hpass', haccounts'⟩ := hm
    exact ⟨front ++ taken, rs ++ rs', List.append_assoc _ _ _, .finish hc hpass hr hpass', haccounts.append haccounts'⟩
  next {strict start mark keyword ts condition inside ms t keyword' after others left} hc hr hm _ ho := by
    obtain ⟨front, rs, rfl, hpass, haccounts⟩ := counted_clauseCondition keyword mark hc
    obtain ⟨taken, rs', rfl, hpass', haccounts'⟩ := hm
    obtain ⟨taken', rs'', rfl, hpass'', haccounts''⟩ := ho
    exact ⟨front ++ taken ++ taken', rs ++ rs' ++ rs'', by simp, .next hc hpass hr hpass' hpass'',
      (haccounts.append haccounts').append haccounts''⟩
  mark {strict start t rest m} hm :=
    ⟨[t], [], rfl, .mark rest hm, (accounts_of_braceless (by simp)).cons (braceless_of_clauseMark hm)⟩
  separator {strict start t rest ms m left} hn hk hm := by
    obtain ⟨taken, rs, rfl, hpass, haccounts⟩ := hm
    exact ⟨t :: taken, rs, rfl, .semicolon hn hk hpass, haccounts.cons (braceless_of_semicolon hk)⟩
  enclosedMember {strict start t rest first after others m left} hn hs hb hr hd _ hm := by
    obtain ⟨taken, rs, ht, hpass, haccounts⟩ := hd
    obtain ⟨taken', rs', rfl, hpass', haccounts'⟩ := hm
    refine ⟨taken ++ taken', rs ++ rs', ?_, .member hn hs hb hpass hr hpass', haccounts.append haccounts'⟩
    rw [List.append_assoc, ht]

theorem braces_of_topLevel {ts : List Token} {ds : List Decl} (h : topLevel ts = .ok ds) :
    ∃ phrases, FilePasses ts phrases ∧ Accounts ts phrases := by
  induction hn : ts.length using Nat.strongRecOn generalizing ts ds with
  | ind n ih =>
    rcases topLevel_cases h with ⟨rfl, -⟩ | ⟨t, rest, rfl, hc⟩
    · exact ⟨[], .finish, accounts_of_braceless (by simp)⟩
    · rw [List.length_cons] at hn
      rcases hc with ⟨hk, hr⟩ | ⟨hs, hb, first, after, others, hd, ho, -⟩
      · obtain ⟨phrases, hpass, haccounts⟩ := ih rest.length (by omega) hr rfl
        exact ⟨phrases, .semicolon hk hpass, haccounts.cons (braceless_of_semicolon hk)⟩
      · have hl := (declarationRun_suffix hd).length_le
        obtain ⟨taken, rs, ht, hpass, haccounts⟩ := bracesInvariant.declared_of_run hd
        obtain ⟨phrases, hpass', haccounts'⟩ := ih after.length (by omega) ho rfl
        refine ⟨rs ++ phrases, .declaration hs hb hpass hd hpass', ?_⟩
        rw [← ht]
        exact haccounts.append haccounts'

/-- The phrases that are passed over while the text is read. -/
def PassedOver (text : String) (phrases : List (List Token)) : Prop := FilePasses (Tokens.ofText text).tokens phrases

/-- A text that is read has the braces of the phrases that are passed over, and others that are balanced: its opening
braces outnumber its closing ones by as much as those of the phrases do, and if each phrase is balanced, then so is the
text. -/
theorem braces_of_parse {text : String} {ds : List Decl} (h : parse text = .ok ds) :
    ∃ phrases, PassedOver text phrases ∧
      braceLevel (Tokens.ofText text).tokens = (phrases.map braceLevel).sum ∧
      ((∀ r ∈ phrases, BraceBalanced r) → BraceBalanced (Tokens.ofText text).tokens) := by
  obtain ⟨-, ht⟩ := parse_cases h
  obtain ⟨phrases, hpass, haccounts⟩ := braces_of_topLevel ht
  exact ⟨phrases, hpass, haccounts.level, haccounts.balanced⟩

/-- A type with accessors, a conditional block and a body, all closed, before an import with a brace that is not. -/
def openText : String :=
  "class A \x7b\nvar x: Int \x7b get \x7b 1 \x7d \x7d\n#if X\nfunc f() \x7b \x7b \x7d \x7d\n#endif\n\x7d\nimport \x7b"

theorem openText_passed :
    ∃ phrases, PassedOver openText phrases ∧ (phrases.map braceLevel).sum = 1 ∧ ∃ r ∈ phrases, ¬BraceBalanced r := by
  have hr : (parse openText).toOption.any (·.length == 2) = true := by decide +kernel
  obtain ⟨ds, hds, -⟩ := exists_ok hr
  obtain ⟨phrases, hpass, hlevel, hbalanced⟩ := braces_of_parse hds
  have hone : braceLevel (Tokens.ofText openText).tokens = 1 := by decide +kernel
  refine ⟨phrases, hpass, hlevel ▸ hone, ?_⟩
  by_contra hall
  simp only [not_exists, not_and, Classical.not_not] at hall
  have hzero := (hbalanced hall).closed
  omega

/-- An import with a brace that nothing closes, before an annotated type. -/
def unclosedText : String := "import \x7b\n@Testable class A \x7b\x7d"

/-- The keyword of the only declaration, if there is only one and nothing but its name is read. -/
def onlyKeyword? : List Decl → Option String
  | [.other _ keyword _] => some keyword
  | _ => none

theorem onlyKeyword?_eq_some {ds : List Decl} {keyword : String} (h : onlyKeyword? ds = some keyword) :
    ∃ head name, ds = [.other head keyword name] := by
  unfold onlyKeyword? at h
  split at h
  · next head _ name => exact ⟨head, name, by rw [Option.some.inj h]⟩
  · cases h

/-- The text is read, as an import and nothing else, though a brace is left open. -/
theorem unclosed_swallows :
    (∃ head name, parse unclosedText = .ok [.other head "import" name]) ∧
      ¬BraceBalanced (Tokens.ofText unclosedText).tokens := by
  constructor
  · have h : (parse unclosedText).toOption.any (onlyKeyword? · == some "import") = true := by
      decide +kernel
    obtain ⟨ds, hds, hkeyword⟩ := exists_ok h
    obtain ⟨head, name, rfl⟩ := onlyKeyword?_eq_some (beq_iff_eq.1 hkeyword)
    exact ⟨head, name, hds⟩
  · intro h
    have hone : braceLevel (Tokens.ofText unclosedText).tokens = 1 := by decide +kernel
    have hzero := h.closed
    omega

end TestHooks.Swift
