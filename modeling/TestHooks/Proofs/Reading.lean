import TestHooks.Swift.File

/-!
# Reading, step by step

The functions that read declarations carry proofs about what they leave. Here they are looked at without those
proofs: one lemma for each way in which a declaration, a member, a clause or a member of a clause is read, and one
induction over everything that is read (`ReadingInvariant`).
-/

namespace TestHooks.Reader

theorem run_bind_eq_ok {τ ε α β : Type} {p : Reader τ ε α} {f : α → Reader τ ε β} {ts rest : List τ} {y : β} :
    (p >>= f).run ts = .ok (y, rest) ↔ ∃ x after, p.run ts = .ok (x, after) ∧ (f x).run after = .ok (y, rest) := by
  rw [run_bind]
  cases p.run ts with
  | error fault =>
    constructor
    · intro h
      cases h
    · rintro ⟨x, after, h, -⟩
      cases h
  | ok found =>
    constructor
    · intro h
      exact ⟨found.1, found.2, rfl, h⟩
    · rintro ⟨x, after, h, hf⟩
      cases h
      exact hf

theorem run_pure_eq_ok {τ ε α : Type} {x y : α} {ts rest : List τ} :
    (pure x : Reader τ ε α).run ts = .ok (y, rest) ↔ x = y ∧ ts = rest := by
  rw [run_pure, Except.ok.injEq, Prod.mk.injEq]

end TestHooks.Reader

namespace TestHooks.Swift

open TestHooks.Reader Reader

def declarationRun (strict : Bool) (t : Token) (ts : List Token) : Except Fault (Option Decl × List Token) :=
  (declaration strict t ts).map Subtype.val

def membersRun (ts : List Token) : Except Fault (List Decl × List Token) :=
  (members ts).map Subtype.val

def clausesRun (strict : Bool) (start mark : Token) (keyword : ClauseKeyword) (ts : List Token) :
    Except Fault (List Clause × List Token) :=
  (clauses strict start mark keyword ts).map Subtype.val

def clauseMembersRun (strict : Bool) (start : Token) (ts : List Token) :
    Except Fault ((List Decl × Token × ClauseMark) × List Token) :=
  (clauseMembers strict start ts).map Subtype.val

theorem map_eq_ok {ε α β : Type} {f : α → β} {r : Except ε α} {y : β} :
    r.map f = .ok y ↔ ∃ x, r = .ok x ∧ f x = y := by
  cases r <;> simp [Except.map]

/-- A result that is looked into and passes is one that is there. -/
theorem exists_ok {ε α : Type} {r : Except ε α} {p : α → Bool}
    (h : r.toOption.any p = true) : ∃ x, r = .ok x ∧ p x = true := by
  cases r with
  | error fault => cases h
  | ok x => exact ⟨x, rfl, h⟩

theorem map_val_eq_ok {α : Type} {P : α → Prop} {r : Except Fault {p : α // P p}} {x : α} :
    r.map Subtype.val = .ok x ↔ ∃ h, r = .ok ⟨x, h⟩ := by
  cases r with
  | error fault => simp [Except.map]
  | ok p =>
    rcases p with ⟨y, hy⟩
    constructor
    · intro h
      cases h
      exact ⟨hy, rfl⟩
    · rintro ⟨h, he⟩
      cases he
      rfl

section Steps

variable {strict : Bool} {t k start mark : Token} {ts rest inside after left : List Token}

theorem declarationRun_conditional {found : List Clause} (hk : t.kind = .hashWord) (ht : t.text = "#if")
    (h : clausesRun strict t t .ifClause ts = .ok (found, rest)) :
    declarationRun strict t ts = .ok (some (.conditional t.position found), rest) := by
  obtain ⟨hs, hc⟩ := map_val_eq_ok.1 h
  rw [declarationRun, declaration, if_pos hk, if_pos ht, hc]
  rfl

theorem declarationRun_directive (hk : t.kind = .hashWord) (ht : t.text ≠ "#if")
    (h : (directive t).run ts = .ok ((), rest)) :
    declarationRun strict t ts = .ok (some (.other ⟨[], [], t.position⟩ t.text ""), rest) := by
  rw [declarationRun, declaration, if_pos hk, if_neg ht]
  split
  · next hd =>
    rw [h] at hd
    cases hd
    rfl
  · next hd =>
    rw [h] at hd
    cases hd

theorem declarationRun_group {head : Head} {keyword : TypeKeyword} {header : TypeHeader} {found : List Decl}
    (hk : t.kind ≠ .hashWord) (hh : (headFrom t).run (t :: ts) = .ok (head, k :: rest))
    (hi : Introducer.ofToken? k = some (.type keyword))
    (ht : (typeHeader keyword).run rest = .ok (header, inside)) (hm : membersRun inside = .ok (found, left)) :
    declarationRun strict t ts = .ok (some (.group head header found), left) := by
  obtain ⟨hs, hm⟩ := map_val_eq_ok.1 hm
  rw [declarationRun, declaration, if_neg hk]
  split
  · next he =>
    rw [hh] at he
    cases he
  · next he =>
    rw [hh] at he
    cases he
  · next he =>
    rw [hh] at he
    cases he
    simp only
    rw [hi]
    simp only
    split
    · next hr =>
      rw [ht] at hr
      cases hr
    · next hr =>
      rw [ht] at hr
      cases hr
      rw [hm]
      rfl

theorem declarationRun_flat {head : Head} {found : Option Decl} (hk : t.kind ≠ .hashWord)
    (hh : (headFrom t).run (t :: ts) = .ok (head, k :: rest))
    (hi : ∀ keyword, Introducer.ofToken? k ≠ some (.type keyword))
    (hf : (flatDeclaration strict head k (Introducer.ofToken? k)).run rest = .ok (found, left)) :
    declarationRun strict t ts = .ok (found, left) := by
  rw [declarationRun, declaration, if_neg hk]
  split
  · next he =>
    rw [hh] at he
    cases he
  · next he =>
    rw [hh] at he
    cases he
  · next he =>
    rw [hh] at he
    cases he
    simp only
    split
    · next hr =>
      rw [hf] at hr
      cases hr
      rfl
    · next hr =>
      rw [hf] at hr
      cases hr

theorem membersRun_close (hk : t.kind = .rightBrace) : membersRun (t :: rest) = .ok ([], rest) := by
  rw [membersRun, members, if_pos hk]
  rfl

theorem membersRun_semicolon (hk : t.kind = .semicolon) : membersRun (t :: rest) = membersRun rest := by
  rw [membersRun, members, if_neg (by simp [hk]), if_pos hk]
  cases h : members rest <;> simp [membersRun, h, Except.map]

theorem membersRun_member {found : Option Decl} {others : List Decl} (hb : t.kind ≠ .rightBrace)
    (hs : t.kind ≠ .semicolon) (hd : declarationRun true t rest = .ok (found, after))
    (hm : membersRun after = .ok (others, left)) :
    membersRun (t :: rest) = .ok (found.toList ++ others, left) := by
  obtain ⟨hr, hd⟩ := map_val_eq_ok.1 hd
  obtain ⟨hl, hm⟩ := map_val_eq_ok.1 hm
  rw [membersRun, members, if_neg hb, if_neg hs, hd]
  simp only
  rw [hm]
  rfl

theorem clausesRun_finish {keyword : ClauseKeyword} {condition : String} {found : List Decl}
    (hc : (clauseCondition keyword mark).run ts = .ok (condition, inside))
    (hm : clauseMembersRun strict start inside = .ok ((found, t, .finish), left)) :
    clausesRun strict start mark keyword ts = .ok ([.mk keyword condition found], left) := by
  obtain ⟨hl, hm⟩ := map_val_eq_ok.1 hm
  rw [clausesRun, clauses]
  split
  · next hr =>
    rw [hc] at hr
    cases hr
  · next hr =>
    rw [hc] at hr
    cases hr
    simp only
    rw [hm]
    rfl

theorem clausesRun_next {keyword keyword' : ClauseKeyword} {condition : String} {found : List Decl}
    {others : List Clause} (hc : (clauseCondition keyword mark).run ts = .ok (condition, inside))
    (hm : clauseMembersRun strict start inside = .ok ((found, t, .next keyword'), after))
    (ho : clausesRun strict start t keyword' after = .ok (others, left)) :
    clausesRun strict start mark keyword ts = .ok (.mk keyword condition found :: others, left) := by
  obtain ⟨hl, hm⟩ := map_val_eq_ok.1 hm
  obtain ⟨hs, ho⟩ := map_val_eq_ok.1 ho
  rw [clausesRun, clauses]
  split
  · next hr =>
    rw [hc] at hr
    cases hr
  · next hr =>
    rw [hc] at hr
    cases hr
    simp only
    rw [hm]
    simp only
    rw [ho]
    rfl

theorem clauseMembersRun_mark {mark : ClauseMark} (hm : clauseMark? t = some mark) :
    clauseMembersRun strict start (t :: rest) = .ok (([], t, mark), rest) := by
  rw [clauseMembersRun, clauseMembers]
  split
  · next he =>
    rw [hm] at he
    cases he
    rfl
  · next he =>
    rw [hm] at he
    cases he

theorem clauseMembersRun_semicolon (hm : clauseMark? t = none) (hk : t.kind = .semicolon) :
    clauseMembersRun strict start (t :: rest) = clauseMembersRun strict start rest := by
  rw [clauseMembersRun, clauseMembers]
  split
  · next he =>
    rw [hm] at he
    cases he
  · rw [if_pos hk]
    cases h : clauseMembers strict start rest <;> simp [clauseMembersRun, h, Except.map]

theorem clauseMembersRun_member {found : Option Decl} {others : List Decl} {mark : Token × ClauseMark}
    (hm : clauseMark? t = none) (hs : t.kind ≠ .semicolon) (hb : t.kind ≠ .rightBrace)
    (hd : declarationRun strict t rest = .ok (found, after))
    (ho : clauseMembersRun strict start after = .ok ((others, mark), left)) :
    clauseMembersRun strict start (t :: rest) = .ok ((found.toList ++ others, mark), left) := by
  obtain ⟨hr, hd⟩ := map_val_eq_ok.1 hd
  obtain ⟨hl, ho⟩ := map_val_eq_ok.1 ho
  rw [clauseMembersRun, clauseMembers]
  split
  · next he =>
    rw [hm] at he
    cases he
  · rw [if_neg hs, if_neg hb, hd]
    simp only
    rw [ho]
    rfl

theorem topLevel_semicolon (hk : t.kind = .semicolon) : topLevel (t :: rest) = topLevel rest := by
  rw [topLevel, if_pos hk]

theorem topLevel_declaration {found : Option Decl} (hs : t.kind ≠ .semicolon) (hb : t.kind ≠ .rightBrace)
    (hd : declarationRun false t rest = .ok (found, left)) :
    topLevel (t :: rest) = (topLevel left).map (found.toList ++ ·) := by
  obtain ⟨hr, hd⟩ := map_val_eq_ok.1 hd
  rw [topLevel, if_neg hs, if_neg hb, hd]

end Steps

/-! ### The ways to read -/

theorem headFrom_cases {t : Token} {ts left : List Token} {head : Head} (h : (headFrom t).run ts = .ok (head, left)) :
    ∃ after, attributes.run ts = .ok (head.attributes, after) ∧ splitModifiers after = (head.modifiers, left) ∧
      head.position = t.position := by
  obtain ⟨as, after, ha, h⟩ := run_bind_eq_ok.1 h
  obtain ⟨ms, rest, hm, h⟩ := run_bind_eq_ok.1 h
  obtain ⟨rfl, rfl⟩ := run_pure_eq_ok.1 h
  exact ⟨after, ha, Except.ok.inj hm, rfl⟩

/-- A declaration without members is a variable, a function, one whose inside is skipped, or a statement, which
nothing may stand before. -/
theorem flatDeclaration_cases {strict : Bool} {head : Head} {t : Token} {introducer : Option Introducer}
    {ts left : List Token} {found : Option Decl}
    (h : (flatDeclaration strict head t introducer).run ts = .ok (found, left)) :
    (∃ keyword bs, introducer = some (.variableList keyword) ∧ (byCommas binding).run ts = .ok (bs, left) ∧
        found = some (.variableList head keyword bs)) ∨
      (∃ signature, introducer = some .function ∧ function.run ts = .ok (signature, left) ∧
        found = some (.function head signature)) ∨
      (∃ keyword name, introducer = some (.other keyword) ∧ (otherName keyword).run ts = .ok (name, left) ∧
        found = some (.other head keyword name)) ∨
      (introducer = none ∨ ∃ keyword, introducer = some (.type keyword)) ∧ strict = false ∧ head.attributes = [] ∧
        head.modifiers = [] ∧ found = none ∧ left = afterStatement (statementDepth 0 t) false ts := by
  unfold flatDeclaration at h
  split at h
  · next keyword =>
    obtain ⟨bs, rest, hb, h⟩ := run_bind_eq_ok.1 h
    obtain ⟨rfl, rfl⟩ := run_pure_eq_ok.1 h
    exact .inl ⟨keyword, bs, rfl, hb, rfl⟩
  · obtain ⟨signature, rest, hf, h⟩ := run_bind_eq_ok.1 h
    obtain ⟨rfl, rfl⟩ := run_pure_eq_ok.1 h
    exact .inr (.inl ⟨signature, rfl, hf, rfl⟩)
  · next keyword =>
    obtain ⟨name, rest, ho, h⟩ := run_bind_eq_ok.1 h
    obtain ⟨rfl, rfl⟩ := run_pure_eq_ok.1 h
    exact .inr (.inr (.inl ⟨keyword, name, rfl, ho, rfl⟩))
  all_goals
    unfold statementOrFault at h
    split at h
    · cases h
    next hs =>
    obtain ⟨⟨⟩, rest, hs', h⟩ := run_bind_eq_ok.1 h
    obtain ⟨rfl, rfl⟩ := run_pure_eq_ok.1 h
    cases hs'
    simp only [Bool.or_eq_true, Bool.not_eq_true', not_or, Bool.not_eq_true, Bool.not_eq_false,
      List.isEmpty_iff] at hs
    exact .inr (.inr (.inr ⟨by simp, hs.1.1, hs.1.2, hs.2, rfl, rfl⟩))

section Cases

variable {strict : Bool} {t start mark : Token} {ts rest left : List Token}

theorem declarationRun_cases {found : Option Decl} (h : declarationRun strict t ts = .ok (found, left)) :
    (t.kind = .hashWord ∧ t.text = "#if" ∧ ∃ cs, found = some (.conditional t.position cs) ∧
        clausesRun strict t t .ifClause ts = .ok (cs, left)) ∨
      (t.kind = .hashWord ∧ t.text ≠ "#if" ∧ found = some (.other ⟨[], [], t.position⟩ t.text "") ∧
        (directive t).run ts = .ok ((), left)) ∨
      ∃ head k rest, t.kind ≠ .hashWord ∧ (headFrom t).run (t :: ts) = .ok (head, k :: rest) ∧ rest <:+ ts ∧
        ((∃ keyword header inside ms, Introducer.ofToken? k = some (.type keyword) ∧
            (typeHeader keyword).run rest = .ok (header, inside) ∧ membersRun inside = .ok (ms, left) ∧
            found = some (.group head header ms)) ∨
          ((∀ keyword, Introducer.ofToken? k ≠ some (.type keyword)) ∧
            (flatDeclaration strict head k (Introducer.ofToken? k)).run rest = .ok (found, left))) := by
  obtain ⟨hl, h⟩ := map_val_eq_ok.1 h
  rw [declaration] at h
  split at h
  · next hk =>
    split at h
    · next ht =>
      split at h
      · next hc =>
        cases h
        exact .inl ⟨hk, ht, _, rfl, map_val_eq_ok.2 ⟨_, hc⟩⟩
      · cases h
    · next ht =>
      split at h
      · next hd =>
        cases h
        exact .inr (.inl ⟨hk, ht, rfl, hd⟩)
      · cases h
  · next hk =>
    split at h
    · cases h
    · cases h
    · next head k rest hh =>
      have hr := suffix_of_cons_suffix_cons ((headFrom t).suffix hh)
      refine .inr (.inr ⟨head, k, rest, hk, hh, hr, ?_⟩)
      simp only at h
      split at h
      · next keyword hi =>
        split at h
        · cases h
        · next ht =>
          split at h
          · next hm =>
            cases h
            exact .inl ⟨keyword, _, _, _, hi, ht, map_val_eq_ok.2 ⟨_, hm⟩, rfl⟩
          · cases h
      · next hi =>
        split at h
        · next hf =>
          cases h
          exact .inr ⟨fun keyword he => hi keyword he, hf⟩
        · cases h

section Behind

variable {k : Token} {head : Head} {found : Option Decl}

/-- A type behind its head and its keyword. -/
theorem group_cases {keyword : TypeKeyword} (hk : t.kind ≠ .hashWord)
    (hh : (headFrom t).run (t :: ts) = .ok (head, k :: rest)) (hi : Introducer.ofToken? k = some (.type keyword))
    (h : declarationRun strict t ts = .ok (found, left)) :
    ∃ header inside ms, (typeHeader keyword).run rest = .ok (header, inside) ∧ membersRun inside = .ok (ms, left) ∧
      found = some (.group head header ms) := by
  rcases declarationRun_cases h with ⟨hx, -⟩ | ⟨hx, -⟩ | ⟨head', k', rest', -, hh', -, hcases⟩
  · exact absurd hx hk
  · exact absurd hx hk
  rw [hh] at hh'
  cases hh'
  rw [hi] at hcases
  rcases hcases with ⟨keyword', header, inside, ms, hx, ht, hm, rfl⟩ | ⟨hno, -⟩
  · cases hx
    exact ⟨header, inside, ms, ht, hm, rfl⟩
  · exact absurd rfl (hno keyword)

/-- A declaration without members behind its head and its keyword. -/
theorem flat_cases {introducer : Option Introducer} (hk : t.kind ≠ .hashWord)
    (hh : (headFrom t).run (t :: ts) = .ok (head, k :: rest)) (hi : Introducer.ofToken? k = introducer)
    (hflat : ∀ keyword, introducer ≠ some (.type keyword)) (h : declarationRun strict t ts = .ok (found, left)) :
    (flatDeclaration strict head k introducer).run rest = .ok (found, left) := by
  rcases declarationRun_cases h with ⟨hx, -⟩ | ⟨hx, -⟩ | ⟨head', k', rest', -, hh', -, hcases⟩
  · exact absurd hx hk
  · exact absurd hx hk
  rw [hh] at hh'
  cases hh'
  rw [hi] at hcases
  rcases hcases with ⟨keyword, _, _, _, hx, -⟩ | ⟨-, hf⟩
  · exact absurd hx (hflat keyword)
  · exact hf

end Behind

theorem membersRun_cases {found : List Decl} (h : membersRun ts = .ok (found, left)) :
    ∃ t rest, ts = t :: rest ∧
      ((t.kind = .rightBrace ∧ found = [] ∧ left = rest) ∨
        (t.kind = .semicolon ∧ membersRun rest = .ok (found, left)) ∨
        (t.kind ≠ .rightBrace ∧ t.kind ≠ .semicolon ∧ ∃ first after others,
          declarationRun true t rest = .ok (first, after) ∧ membersRun after = .ok (others, left) ∧
          found = first.toList ++ others)) := by
  cases ts with
  | nil =>
    obtain ⟨hl, h⟩ := map_val_eq_ok.1 h
    rw [members] at h
    cases h
  | cons t rest =>
    refine ⟨t, rest, rfl, ?_⟩
    by_cases hb : t.kind = .rightBrace
    · rw [membersRun_close hb] at h
      cases h
      exact .inl ⟨hb, rfl, rfl⟩
    · by_cases hs : t.kind = .semicolon
      · rw [membersRun_semicolon hs] at h
        exact .inr (.inl ⟨hs, h⟩)
      · obtain ⟨hl, h⟩ := map_val_eq_ok.1 h
        rw [members, if_neg hb, if_neg hs] at h
        split at h
        · cases h
        · next hd =>
          split at h
          · next hm =>
            cases h
            exact .inr (.inr ⟨hb, hs, _, _, _, map_val_eq_ok.2 ⟨_, hd⟩, map_val_eq_ok.2 ⟨_, hm⟩, rfl⟩)
          · cases h

theorem clausesRun_cases {keyword : ClauseKeyword} {found : List Clause}
    (h : clausesRun strict start mark keyword ts = .ok (found, left)) :
    ∃ condition inside ms t, (clauseCondition keyword mark).run ts = .ok (condition, inside) ∧
      ((clauseMembersRun strict start inside = .ok ((ms, t, .finish), left) ∧
          found = [.mk keyword condition ms]) ∨
        ∃ keyword' after others, clauseMembersRun strict start inside = .ok ((ms, t, .next keyword'), after) ∧
          clausesRun strict start t keyword' after = .ok (others, left) ∧
          found = .mk keyword condition ms :: others) := by
  obtain ⟨hl, h⟩ := map_val_eq_ok.1 h
  rw [clauses] at h
  split at h
  · cases h
  · next condition inside hc =>
    simp only at h
    split at h
    · cases h
    · next ms t _ _ hm =>
      cases h
      exact ⟨condition, inside, ms, t, hc, .inl ⟨map_val_eq_ok.2 ⟨_, hm⟩, rfl⟩⟩
    · next ms t keyword' after _ hm =>
      split at h
      · next ho =>
        cases h
        exact ⟨condition, inside, ms, t, hc, .inr
          ⟨keyword', after, _, map_val_eq_ok.2 ⟨_, hm⟩, map_val_eq_ok.2 ⟨_, ho⟩, rfl⟩⟩
      · cases h

theorem clauseMembersRun_cases {found : List Decl} {mark : Token × ClauseMark}
    (h : clauseMembersRun strict start ts = .ok ((found, mark), left)) :
    ∃ t rest, ts = t :: rest ∧
      ((∃ m, clauseMark? t = some m ∧ found = [] ∧ mark = (t, m) ∧ left = rest) ∨
        (clauseMark? t = none ∧ t.kind = .semicolon ∧
          clauseMembersRun strict start rest = .ok ((found, mark), left)) ∨
        (clauseMark? t = none ∧ t.kind ≠ .semicolon ∧ t.kind ≠ .rightBrace ∧ ∃ first after others,
          declarationRun strict t rest = .ok (first, after) ∧
          clauseMembersRun strict start after = .ok ((others, mark), left) ∧
          found = first.toList ++ others)) := by
  cases ts with
  | nil =>
    obtain ⟨hl, h⟩ := map_val_eq_ok.1 h
    rw [clauseMembers] at h
    cases h
  | cons t rest =>
    refine ⟨t, rest, rfl, ?_⟩
    cases hm : clauseMark? t with
    | some m =>
      rw [clauseMembersRun_mark hm] at h
      cases h
      exact .inl ⟨m, rfl, rfl, rfl, rfl⟩
    | none =>
      by_cases hs : t.kind = .semicolon
      · rw [clauseMembersRun_semicolon hm hs] at h
        exact .inr (.inl ⟨rfl, hs, h⟩)
      · obtain ⟨hl, h⟩ := map_val_eq_ok.1 h
        rw [clauseMembers] at h
        split at h
        · next he =>
          rw [hm] at he
          cases he
        · rw [if_neg hs] at h
          split at h
          · cases h
          · next hb =>
            split at h
            · cases h
            · next hd =>
              split at h
              · next ho =>
                cases h
                exact .inr (.inr ⟨rfl, hs, hb, _, _, _, map_val_eq_ok.2 ⟨_, hd⟩, map_val_eq_ok.2 ⟨_, ho⟩, rfl⟩)
              · cases h

theorem topLevel_cases {found : List Decl} (h : topLevel ts = .ok found) :
    (ts = [] ∧ found = []) ∨ ∃ t rest, ts = t :: rest ∧
      ((t.kind = .semicolon ∧ topLevel rest = .ok found) ∨
        (t.kind ≠ .semicolon ∧ t.kind ≠ .rightBrace ∧ ∃ first after others,
          declarationRun false t rest = .ok (first, after) ∧ topLevel after = .ok others ∧
          found = first.toList ++ others)) := by
  cases ts with
  | nil =>
    rw [topLevel] at h
    cases h
    exact .inl ⟨rfl, rfl⟩
  | cons t rest =>
    refine .inr ⟨t, rest, rfl, ?_⟩
    by_cases hs : t.kind = .semicolon
    · rw [topLevel_semicolon hs] at h
      exact .inl ⟨hs, h⟩
    · rw [topLevel, if_neg hs] at h
      split at h
      · cases h
      · next hb =>
        split at h
        · cases h
        · next hd =>
          obtain ⟨others, ho, hf⟩ := map_eq_ok.1 h
          exact .inr ⟨hs, hb, _, _, others, map_val_eq_ok.2 ⟨_, hd⟩, ho, hf.symm⟩

end Cases

/-! ### What every step keeps -/

theorem declarationRun_suffix {strict : Bool} {t : Token} {ts left : List Token} {found : Option Decl}
    (h : declarationRun strict t ts = .ok (found, left)) : left <:+ ts :=
  (map_val_eq_ok.1 h).1

theorem membersRun_suffix {ts left : List Token} {found : List Decl} (h : membersRun ts = .ok (found, left)) :
    left <:+ ts :=
  (map_val_eq_ok.1 h).1

theorem clausesRun_suffix {strict : Bool} {start mark : Token} {keyword : ClauseKeyword} {ts left : List Token}
    {found : List Clause} (h : clausesRun strict start mark keyword ts = .ok (found, left)) : left <:+ ts :=
  (map_val_eq_ok.1 h).1

theorem clauseMembersRun_suffix {strict : Bool} {start : Token} {ts left : List Token}
    {found : List Decl × Token × ClauseMark} (h : clauseMembersRun strict start ts = .ok (found, left)) :
    left <:+ ts ∧ left.length < ts.length :=
  (map_val_eq_ok.1 h).1

/-- What may be said of declarations, members, clauses and the members of a clause, of the tokens they are read
from and of those they leave, so that each step of reading keeps it. -/
structure ReadingInvariant where
  declared : Bool → Token → List Token → Option Decl → List Token → Prop
  listed : List Token → List Decl → List Token → Prop
  divided : Bool → Token → Token → ClauseKeyword → List Token → List Clause → List Token → Prop
  enclosed : Bool → Token → List Token → List Decl → Token × ClauseMark → List Token → Prop
  conditional : ∀ {strict t ts cs left}, t.kind = .hashWord → t.text = "#if" →
    clausesRun strict t t .ifClause ts = .ok (cs, left) → divided strict t t .ifClause ts cs left →
    declared strict t ts (some (.conditional t.position cs)) left
  directive : ∀ {strict t ts left}, t.kind = .hashWord → t.text ≠ "#if" → (directive t).run ts = .ok ((), left) →
    declared strict t ts (some (.other ⟨[], [], t.position⟩ t.text "")) left
  group : ∀ {strict t ts head k rest keyword header inside ms left}, t.kind ≠ .hashWord →
    (headFrom t).run (t :: ts) = .ok (head, k :: rest) → Introducer.ofToken? k = some (.type keyword) →
    (typeHeader keyword).run rest = .ok (header, inside) → membersRun inside = .ok (ms, left) →
    listed inside ms left → declared strict t ts (some (.group head header ms)) left
  flat : ∀ {strict t ts head k rest found left}, t.kind ≠ .hashWord →
    (headFrom t).run (t :: ts) = .ok (head, k :: rest) → (∀ keyword, Introducer.ofToken? k ≠ some (.type keyword)) →
    (flatDeclaration strict head k (Introducer.ofToken? k)).run rest = .ok (found, left) →
    declared strict t ts found left
  close : ∀ {t rest}, t.kind = .rightBrace → listed (t :: rest) [] rest
  semicolon : ∀ {t rest ms left}, t.kind = .semicolon → listed rest ms left → listed (t :: rest) ms left
  member : ∀ {t rest first after others left}, t.kind ≠ .rightBrace → t.kind ≠ .semicolon →
    declarationRun true t rest = .ok (first, after) → declared true t rest first after →
    membersRun after = .ok (others, left) → listed after others left →
    listed (t :: rest) (first.toList ++ others) left
  finish : ∀ {strict start mark keyword ts condition inside ms t left},
    (clauseCondition keyword mark).run ts = .ok (condition, inside) →
    clauseMembersRun strict start inside = .ok ((ms, t, .finish), left) →
    enclosed strict start inside ms (t, .finish) left →
    divided strict start mark keyword ts [.mk keyword condition ms] left
  next : ∀ {strict start mark keyword ts condition inside ms t keyword' after others left},
    (clauseCondition keyword mark).run ts = .ok (condition, inside) →
    clauseMembersRun strict start inside = .ok ((ms, t, .next keyword'), after) →
    enclosed strict start inside ms (t, .next keyword') after →
    clausesRun strict start t keyword' after = .ok (others, left) →
    divided strict start t keyword' after others left →
    divided strict start mark keyword ts (.mk keyword condition ms :: others) left
  mark : ∀ {strict start t rest m}, clauseMark? t = some m → enclosed strict start (t :: rest) [] (t, m) rest
  separator : ∀ {strict start t rest ms m left}, clauseMark? t = none → t.kind = .semicolon →
    enclosed strict start rest ms m left → enclosed strict start (t :: rest) ms m left
  enclosedMember : ∀ {strict start t rest first after others m left}, clauseMark? t = none →
    t.kind ≠ .semicolon → t.kind ≠ .rightBrace → declarationRun strict t rest = .ok (first, after) →
    declared strict t rest first after → clauseMembersRun strict start after = .ok ((others, m), left) →
    enclosed strict start after others m left → enclosed strict start (t :: rest) (first.toList ++ others) m left

namespace ReadingInvariant

variable (I : ReadingInvariant)

mutual

theorem declared_of_run {strict : Bool} {t : Token} {ts left : List Token} {found : Option Decl}
    (h : declarationRun strict t ts = .ok (found, left)) : I.declared strict t ts found left := by
  rcases declarationRun_cases h with ⟨hk, ht, cs, rfl, hc⟩ | ⟨hk, ht, rfl, hd⟩ | ⟨head, k, rest, hk, hh, hr, h⟩
  · exact I.conditional hk ht hc (divided_of_run hc)
  · exact I.directive hk ht hd
  · rcases h with ⟨keyword, header, inside, ms, hi, ht, hm, rfl⟩ | ⟨hi, hf⟩
    · exact I.group hk hh hi ht hm (listed_of_run hm)
    · exact I.flat hk hh hi hf
termination_by 3 * ts.length + 2
decreasing_by
  · omega
  · have := strict_typeHeader keyword ht
    have := hr.length_le
    omega

theorem listed_of_run {ts left : List Token} {found : List Decl} (h : membersRun ts = .ok (found, left)) :
    I.listed ts found left := by
  obtain ⟨t, rest, hts, hc⟩ := membersRun_cases h
  have hl : ts.length = rest.length + 1 := by rw [hts, List.length_cons]
  rw [hts]
  rcases hc with ⟨hk, rfl, rfl⟩ | ⟨hk, hm⟩ | ⟨hb, hs, first, after, others, hd, hm, rfl⟩
  · exact I.close hk
  · exact I.semicolon hk (listed_of_run hm)
  · exact I.member hb hs hd (declared_of_run hd) hm (listed_of_run hm)
termination_by 3 * ts.length
decreasing_by
  · omega
  · omega
  · have := (declarationRun_suffix hd).length_le
    omega

theorem divided_of_run {strict : Bool} {start mark : Token} {keyword : ClauseKeyword} {ts left : List Token}
    {found : List Clause} (h : clausesRun strict start mark keyword ts = .ok (found, left)) :
    I.divided strict start mark keyword ts found left := by
  obtain ⟨condition, inside, ms, t, hc, h⟩ := clausesRun_cases h
  rcases h with ⟨hm, rfl⟩ | ⟨keyword', after, others, hm, ho, rfl⟩
  · exact I.finish hc hm (enclosed_of_run hm)
  · exact I.next hc hm (enclosed_of_run hm) ho (divided_of_run ho)
termination_by 3 * ts.length + 1
decreasing_by
  all_goals have hi := ((clauseCondition keyword mark).suffix hc).length_le
  · omega
  · omega
  · have := (clauseMembersRun_suffix hm).2
    omega

theorem enclosed_of_run {strict : Bool} {start : Token} {ts left : List Token} {found : List Decl}
    {m : Token × ClauseMark} (h : clauseMembersRun strict start ts = .ok ((found, m), left)) :
    I.enclosed strict start ts found m left := by
  obtain ⟨t, rest, hts, hc⟩ := clauseMembersRun_cases h
  have hl : ts.length = rest.length + 1 := by rw [hts, List.length_cons]
  rw [hts]
  rcases hc with ⟨m, hm, rfl, rfl, rfl⟩ | ⟨hm, hk, ho⟩ | ⟨hm, hs, hb, first, after, others, hd, ho, rfl⟩
  · exact I.mark hm
  · exact I.separator hm hk (enclosed_of_run ho)
  · exact I.enclosedMember hm hs hb hd (declared_of_run hd) ho (enclosed_of_run ho)
termination_by 3 * ts.length
decreasing_by
  · omega
  · omega
  · have := (declarationRun_suffix hd).length_le
    omega

end

end ReadingInvariant

end TestHooks.Swift
