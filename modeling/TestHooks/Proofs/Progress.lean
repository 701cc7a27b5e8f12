import TestHooks.Proofs.Braces
import TestHooks.Proofs.CursorHeaders
import TestHooks.Proofs.Directives
import TestHooks.Proofs.Reformatting

/-!
# Progress of reading

A file is read by position without ever breaking down (`reading_moves_on`): a declaration that is asked for where
members, clauses and files ask for one leaves a position further on or has a fault, no loop has an idle turn, and
declarations are not nested more deeply than there are tokens. What is read is what the readers of suffixes read.
-/

namespace TestHooks.Swift

open TestHooks.Reader Reader

namespace Cursor

/-! ### Declarations by position -/

def clauseKeyword? (text : String) : Option ClauseKeyword :=
  if text = "#if" then some .ifClause
  else if text = "#elseif" then some .elseifClause
  else if text = "#else" then some .elseClause
  else none

def clauseCondition (keyword : ClauseKeyword) (directive : Token) : Cursor String :=
  if keyword = .elseClause then pure "" else condition directive

section Blocks

variable (nested : Cursor (Option Decl)) (start : Token)

/-- A turn of the members of a clause of the block that begins with `start`. -/
def enclosedTurn (found : List Decl) : Cursor (Turn (List Decl) (List Decl)) := do
  match ← peek 0 with
  | none => raise (start.fault .unterminatedCondition)
  | some t =>
    if t.kind == .hashWord && ["#elseif", "#else", "#endif"].contains t.text then pure (.leave found)
    else if t.kind = .semicolon then
      let _ ← consume
      pure (.again found)
    else if t.kind = .rightBrace then raise (start.fault .unterminatedCondition)
    else
      let member ← nested
      pure (.again (found ++ member.toList))

def clauseTurn (found : List Clause) : Cursor (Turn (List Clause) (List Clause)) := do
  let mark ← consumeKind .hashWord
  if mark.text = "#endif" then pure (.leave found)
  else
    match clauseKeyword? mark.text with
    | none => raise (mark.fault (.unexpectedDirective mark.text))
    | some keyword =>
      let condition ← clauseCondition keyword mark
      let members ← loop (enclosedTurn nested start) []
      pure (.again (found ++ [.mk keyword condition members]))

def conditional : Cursor Decl := do
  let first ← current
  let clauses ← loop (clauseTurn nested first) []
  pure (.conditional first.position clauses)

def memberTurn (found : List Decl) : Cursor (Turn (List Decl) (List Decl)) := do
  if ← nextIs (·.kind == .rightBrace) 0 then pure (.leave found)
  else if ← atEnd then raise ⟨.unexpectedEndOfBlock, .unknown⟩
  else if ← nextIs (·.kind == .semicolon) 0 then
    let _ ← consume
    pure (.again found)
  else
    match ← nested with
    | some member => pure (.again (found ++ [member]))
    | none => breakDown .missingMember

/-- The members of a type that are left when `found` are read, through the closing brace. -/
def membersAfter (found : List Decl) : Cursor (List Decl) := do
  let members ← loop (memberTurn nested) found
  let _ ← consumeKind .rightBrace
  pure members

end Blocks

/-- The attributes and modifiers of a declaration whose first token is `first`. -/
def head (first : Token) : Cursor Head := do
  let attributes ← attributes
  let modifiers ← modifiers
  pure ⟨attributes, modifiers, first.position⟩

/-- A declaration from its keyword `t` on. -/
def declarationFrom (nested : Cursor (Option Decl)) (strict : Bool) (head : Head) (t : Token) :
    Cursor (Option Decl) :=
  match Introducer.ofToken? t with
  | some (.type keyword) => do
    let _ ← consumeKind .identifier
    let header ← typeHeader keyword
    let members ← membersAfter nested []
    pure (some (.group head header members))
  | some (.variableList keyword) => do
    let _ ← consumeKind .identifier
    let bindings ← separatedByCommas binding
    pure (some (.variableList head keyword bindings))
  | some .function => do
    let _ ← consumeKind .identifier
    let signature ← function
    pure (some (.function head signature))
  | some (.other keyword) => do
    let _ ← consumeKind .identifier
    let name ← otherName keyword
    pure (some (.other head keyword name))
  | none =>
    if strict || !head.attributes.isEmpty || !head.modifiers.isEmpty then
      raise (t.fault (.expectedDeclaration t.text))
    else do
      skipStatement
      pure none

/-- A declaration inside which others are nested at most `limit` deep, itself counted. A statement gives nothing. -/
def declarationWithin : Nat → Bool → Cursor (Option Decl)
  | 0, _ => breakDown .nestedTooDeep
  | limit + 1, strict => do
    let first ← current
    if first.kind = .hashWord then
      if first.text = "#if" then
        let block ← conditional (declarationWithin limit strict)
        pure (some block)
      else
        directive
        pure (some (.other ⟨[], [], first.position⟩ first.text ""))
    else
      let head ← head first
      match ← peek 0 with
      | none => raise (first.fault .onlyAttributes)
      | some t => declarationFrom (declarationWithin limit true) strict head t

def fileTurn (limit : Nat) (found : List Decl) : Cursor (Turn (List Decl) (List Decl)) := do
  if ← atEnd then pure (.leave found)
  else if ← nextIs (·.kind == .semicolon) 0 then
    let _ ← consume
    pure (.again found)
  else if ← nextIs (·.kind == .rightBrace) 0 then
    let t ← consume
    raise (t.fault .unbalancedBrace)
  else
    let member ← declarationWithin limit false
    pure (.again (found ++ member.toList))

/-- The declarations at the top of a file. -/
def fileWithin (limit : Nat) : Cursor (List Decl) := loop (fileTurn limit) []

/-! ### Blocks -/

/-- From a position on the cursor reads declarations as they are read from suffixes, where one may begin. -/
def ReadsFrom (nested : Cursor (Option Decl)) (strict : Bool) (tokens : List Token) (start : Nat) : Prop :=
  ∀ ⦃position : Nat⦄ ⦃t : Token⦄, start ≤ position → tokens[position]? = some t → t.kind ≠ .rightBrace →
    t.kind ≠ .semicolon →
      Agrees tokens Eq (nested.run tokens position) (declarationRun strict t (tokens.drop (position + 1)))

theorem ReadsFrom.mono {nested : Cursor (Option Decl)} {strict : Bool} {tokens : List Token} {start later : Nat}
    (h : ReadsFrom nested strict tokens start) (hle : start ≤ later) : ReadsFrom nested strict tokens later :=
  fun _ _ hs => h (Nat.le_trans hle hs)

/-- A declaration takes its first token. -/
theorem lt_of_declarationRun {strict : Bool} {tokens : List Token} {position after : Nat} {t : Token}
    {found : Option Decl} (hp : position + 1 ≤ tokens.length) (ha : after ≤ tokens.length)
    (h : declarationRun strict t (tokens.drop (position + 1)) = .ok (found, tokens.drop after)) : position < after := by
  have := (declarationRun_suffix h).length_le
  simp only [List.length_drop] at this
  omega

/-- Where only declarations may stand, each gives a member. -/
theorem isSome_of_strict {t : Token} {ts left : List Token} {found : Option Decl}
    (h : declarationRun true t ts = .ok (found, left)) : found.isSome = true := by
  rcases declarationRun_cases h with ⟨-, -, _, rfl, -⟩ | ⟨-, -, rfl, -⟩ |
    ⟨head, k, rest, -, -, -, ⟨_, _, _, _, -, -, -, rfl⟩ | ⟨-, hf⟩⟩
  · rfl
  · rfl
  · rfl
  · rcases flatDeclaration_cases hf with ⟨_, _, -, -, rfl⟩ | ⟨_, -, -, rfl⟩ | ⟨_, _, -, -, rfl⟩ | ⟨-, hs, -⟩
    · rfl
    · rfl
    · rfl
    · cases hs

section Blocks

variable {nested : Cursor (Option Decl)} {strict : Bool} {tokens : List Token} {start : Nat}

theorem Appended.append {found xs ys zs : List Decl} (h : Appended (found ++ zs) xs ys) :
    Appended found xs (zs ++ ys) := by
  rw [Appended, h, List.append_assoc]

theorem membersAfter_agrees (h : ReadsFrom nested true tokens start) (found : List Decl)
    (hp : start ≤ tokens.length) :
    Agrees tokens (Appended found) ((membersAfter nested found).run tokens start) (membersRun (tokens.drop start)) := by
  refine loop_agrees_then (fun found => found) _ Appended (fun _ after => membersRun (tokens.drop after))
    (fun found position hs hp again => ?_) found hp
  rw [memberTurn, run_bind, run_nextIs, Nat.add_zero, bind_done]
  rcases position_cases tokens position with ⟨hg, hd⟩ | ⟨t, hg, hnext, hd⟩
  · have hnone : membersRun [] = .error ⟨.unexpectedEndOfBlock, .unknown⟩ := by
      rw [membersRun, members]
      rfl
    rw [hg, hd, hnone, Option.any_none, if_neg Bool.false_ne_true, run_bind, run_atEnd_of_none hg]
    exact .fault _
  · rw [hg, hd, Option.any_some, membersRun_eq]
    by_cases hb : t.kind = .rightBrace
    · rw [if_pos (by simpa using hb), if_pos hb, run_pure, bind_done, afterTurn_leave, bind_done, run_bind,
        run_consumeKind hg hb]
      exact .done (appended_nil found) hnext rfl
    · rw [if_neg (by simpa using hb), if_neg hb, run_bind, run_atEnd_of_some hg, bind_done,
        if_neg Bool.false_ne_true, run_bind, run_nextIs, Nat.add_zero, bind_done, hg, Option.any_some]
      by_cases hsemi : t.kind = .semicolon
      · rw [if_pos (by simpa using hsemi), if_pos hsemi, run_bind, run_consume hg, bind_done]
        exact again found (position + 1) (by omega) hnext
      · rw [if_neg (by simpa using hsemi), if_neg hsemi, run_bind, bind_assoc]
        refine (h hs hg hb hsemi).bind fun member _ after hx ha hr => ?_
        subst hx
        obtain ⟨d, rfl⟩ := Option.isSome_iff_exists.1 (isSome_of_strict hr)
        exact (again (found ++ [d]) after (lt_of_declarationRun hnext ha hr) ha).map (d :: ·) fun _ _ => Appended.cons

/-! ### Conditional blocks -/

theorem isSome_clauseMark (t : Token) :
    (t.kind == .hashWord && ["#elseif", "#else", "#endif"].contains t.text) = (clauseMark? t).isSome := by
  unfold clauseMark?
  split_ifs <;> simp_all

/-- What the members of a clause are behind `found`. -/
def Enclosed (found xs : List Decl) (y : List Decl × Token × ClauseMark) : Prop := xs = found ++ y.1

variable {first : Token}

theorem loop_enclosedTurn (h : ReadsFrom nested strict tokens start) (found : List Decl) (hp : start ≤ tokens.length) :
    Agrees tokens (Enclosed found) ((loop (enclosedTurn nested first) found).run tokens start)
      (clauseMembersRun strict first (tokens.drop start) >>= fun m => .ok (m.1, m.1.2.1 :: m.2)) := by
  refine loop_agrees (fun found => found) Enclosed
    (fun _ after => clauseMembersRun strict first (tokens.drop after) >>= fun m => .ok (m.1, m.1.2.1 :: m.2))
    (fun found position hs hp again => ?_) found hp
  rw [enclosedTurn, run_bind, run_peek, Nat.add_zero, bind_done]
  rcases position_cases tokens position with ⟨hg, hd⟩ | ⟨t, hg, hnext, hd⟩
  · have hnone : clauseMembersRun strict first [] = .error (first.fault .unterminatedCondition) := by
      rw [clauseMembersRun, clauseMembers]
      rfl
    rw [hg, hd, hnone]
    exact .fault _
  · rw [hg, hd, clauseMembersRun_eq]
    simp only
    rw [isSome_clauseMark]
    cases hm : clauseMark? t with
    | some mark => exact .done (List.append_nil _).symm hp hd.symm
    | none =>
      rw [Option.isSome_none, if_neg Bool.false_ne_true]
      split
      · rw [run_bind, run_consume hg, bind_done]
        exact again found (position + 1) (by omega) hnext
      · next hsemi =>
        split
        · exact .fault _
        · next hb =>
          rw [run_bind, bind_assoc, LawfulMonad.bind_assoc]
          refine (h hs hg hb hsemi).bind fun member _ after hx ha hr => ?_
          subst hx
          have hmap : (clauseMembersRun strict first (tokens.drop after) >>= fun m =>
                .ok ((member.toList ++ m.1.1, m.1.2), m.2)) >>= (fun m => .ok (m.1, m.1.2.1 :: m.2)) =
              (clauseMembersRun strict first (tokens.drop after) >>= fun m => .ok (m.1, m.1.2.1 :: m.2)) >>=
                fun m => (.ok ((member.toList ++ m.1.1, m.1.2), m.2) :
                  Except Fault ((List Decl × Token × ClauseMark) × List Token)) := by
            cases clauseMembersRun strict first (tokens.drop after) <;> rfl
          rw [hmap]
          refine (again _ after (lt_of_declarationRun hnext ha hr) ha).map (fun y => (member.toList ++ y.1, y.2))
            fun xs y hy => ?_
          rw [Enclosed, hy, List.append_assoc]

/-- What is left from the directive on before which the members of a clause end. -/
theorem length_enclosed {ts rest : List Token} {y : List Decl × Token × ClauseMark}
    (h : (clauseMembersRun strict first ts >>= fun m => .ok (m.1, m.1.2.1 :: m.2)) = .ok (y, rest)) :
    rest.length ≤ ts.length := by
  cases hm : clauseMembersRun strict first ts with
  | error fault =>
    rw [hm] at h
    cases h
  | ok m =>
    rw [hm] at h
    cases h
    exact (clauseMembers_end hm).2.2.length_le

/-- The clauses from a directive on. -/
def clausesAt (strict : Bool) (first : Token) : List Token → Except Fault (List Clause × List Token)
  | [] => .error ⟨.unexpectedEnd, .lastToken⟩
  | t :: rest =>
    if t.kind = .hashWord then
      if t.text = "#endif" then .ok ([], rest)
      else
        match clauseKeyword? t.text with
        | some keyword => clausesRun strict first t keyword rest
        | none => .error (t.fault (.unexpectedDirective t.text))
    else .error (t.fault (.expectedKind .hashWord t.text))

theorem clausesAt_mark {t : Token} {mark : ClauseMark} (h : clauseMark? t = some mark) (rest : List Token) :
    clausesAt strict first (t :: rest) =
      match mark with
      | .finish => .ok ([], rest)
      | .next keyword => clausesRun strict first t keyword rest := by
  unfold clauseMark? at h
  split at h
  · cases h
  · next hk =>
    have hk : t.kind = .hashWord := by simpa using hk
    rw [clausesAt, if_pos hk]
    split at h
    · next ht =>
      cases h
      rw [ht]
      rfl
    · split at h
      · next ht =>
        cases h
        rw [ht]
        rfl
      · split at h
        · next ht =>
          cases h
          rw [if_pos ht]
        · cases h

/-- A clause is followed by the clauses from the directive on before which its members end. -/
theorem clausesRun_at (mark : Token) (keyword : ClauseKeyword) (ts : List Token) :
    clausesRun strict first mark keyword ts =
      (TestHooks.Swift.clauseCondition keyword mark).run ts >>= fun c =>
        (clauseMembersRun strict first c.2 >>= fun m => .ok (m.1, m.1.2.1 :: m.2)) >>= fun m =>
          clausesAt strict first m.2 >>= fun o => .ok (.mk keyword c.1 m.1.1 :: o.1, o.2) := by
  rw [clausesRun_eq]
  cases (TestHooks.Swift.clauseCondition keyword mark).run ts with
  | error fault => rfl
  | ok c =>
    change clauseMembersRun strict first c.2 >>= _ = (clauseMembersRun strict first c.2 >>= _) >>= _
    cases hm : clauseMembersRun strict first c.2 with
    | error fault => rfl
    | ok m =>
      obtain ⟨⟨ms, t, next⟩, left⟩ := m
      change _ = clausesAt strict first (t :: left) >>= _
      rw [clausesAt_mark (clauseMembers_end hm).2.1]
      cases next <;> rfl

theorem follows_clauseCondition (keyword : ClauseKeyword) (t : Token) :
    Follows (clauseCondition keyword t) (TestHooks.Swift.clauseCondition keyword t) := by
  unfold clauseCondition TestHooks.Swift.clauseCondition
  split
  · exact follows_pure rfl
  · exact follows_condition t

theorem loop_clauseTurn (first : Token) (h : ReadsFrom nested strict tokens (start + 1)) (found : List Clause)
    (ht : tokens ≠ []) (hp : start ≤ tokens.length) :
    Agrees tokens (Appended found) ((loop (clauseTurn nested first) found).run tokens start)
      (clausesAt strict first (tokens.drop start)) := by
  refine loop_agrees (fun found => found) Appended (fun _ after => clausesAt strict first (tokens.drop after))
    (fun found position hs hp again => ?_) found hp
  rw [clauseTurn, run_bind]
  rcases position_cases tokens position with ⟨hg, hd⟩ | ⟨t, hg, hnext, hd⟩
  · rw [hd]
    simp only [consumeKind, hg]
    exact .fault _
  · rw [hd, clausesAt]
    simp only [consumeKind, hg]
    by_cases hk : t.kind = .hashWord
    · rw [if_pos hk, if_pos hk, bind_done]
      split
      · exact .done (appended_nil found) hnext rfl
      · cases clauseKeyword? t.text with
        | none => exact .fault _
        | some keyword =>
          simp only
          rw [run_bind, bind_assoc, clausesRun_at]
          refine (follows_clauseCondition keyword t ht hnext).bind fun condition _ inside hx hi hr => ?_
          subst hx
          have hle := le_of_run hnext hi hr
          rw [run_bind, bind_assoc]
          refine (loop_enclosedTurn (h.mono (by omega)) [] hi).bind fun members y after hy ha hr => ?_
          have hshorter := length_enclosed hr
          simp only [List.length_drop] at hshorter
          subst hy
          exact (again _ after (by omega) ha).map _ fun _ _ => Appended.cons
    · rw [if_neg hk, if_neg hk]
      exact .fault _

theorem conditional_agrees {position : Nat} {t : Token} (h : ReadsFrom nested strict tokens (position + 1))
    (hg : tokens[position]? = some t) (hk : t.kind = .hashWord) (hi : t.text = "#if") :
    Agrees tokens (fun block clauses => block = .conditional t.position clauses)
      ((conditional nested).run tokens position) (clausesRun strict t t .ifClause (tokens.drop (position + 1))) := by
  obtain ⟨hp, hd⟩ := drop_of_getElem? hg
  have hclauses := loop_clauseTurn t h [] (ne_nil_of_getElem? hg) (Nat.le_of_lt hp)
  have hat : clausesAt strict t (tokens.drop position) =
      clausesRun strict t t .ifClause (tokens.drop (position + 1)) := by
    rw [hd, clausesAt, if_pos hk, hi]
    rfl
  rw [hat] at hclauses
  rw [conditional, run_bind, run_current hg, bind_done, run_bind]
  generalize (loop (clauseTurn nested t) []).run tokens position = e at hclauses ⊢
  generalize clausesRun strict t t .ifClause (tokens.drop (position + 1)) = r at hclauses ⊢
  cases hclauses with
  | fault f => exact .fault f
  | done hc ha hd => exact .done (congrArg _ hc) ha hd

/-! ### Declarations -/

theorem identifier_of_introducer {k : Token} {introducer : Introducer} (h : Introducer.ofToken? k = some introducer) :
    k.kind = .identifier := by
  unfold Introducer.ofToken? at h
  split at h
  · cases h
  · next hk => simpa using hk

theorem follows_head (t : Token) : Follows (head t) (headFrom t) :=
  follows_attributes.bind fun _ => follows_modifiers.bind fun _ => follows_pure rfl

/-- Without attributes and modifiers a declaration begins with its keyword. -/
theorem headFrom_empty {t : Token} {ts left : List Token} {head : Head} (h : (headFrom t).run ts = .ok (head, left))
    (ha : head.attributes = []) (hm : head.modifiers = []) : left = ts := by
  obtain ⟨after, hattributes, hmodifiers, -⟩ := headFrom_cases h
  rw [ha] at hattributes
  rw [hm] at hmodifiers
  rw [splitModifiers_nil hmodifiers, whileNext_nil hattributes]

/-- A statement that does not begin with a closing brace or a semicolon takes its first token. -/
theorem follows_statement {head : Head} {k : Token} {position : Nat} (hg : tokens[position]? = some k)
    (hk : head.attributes = [] → head.modifiers = [] → k.kind ≠ .rightBrace ∧ k.kind ≠ .semicolon) :
    Agrees tokens Eq
      ((if strict || !head.attributes.isEmpty || !head.modifiers.isEmpty then
          raise (k.fault (.expectedDeclaration k.text))
        else skipStatement >>= fun _ => pure none : Cursor (Option Decl)).run tokens position)
      ((statementOrFault strict head k).run (tokens.drop (position + 1))) := by
  obtain ⟨hp, hd⟩ := drop_of_getElem? hg
  unfold statementOrFault
  split
  · exact .fault _
  · next hplain =>
    simp only [Bool.or_eq_true, Bool.not_eq_true', not_or, Bool.not_eq_false, List.isEmpty_iff] at hplain
    obtain ⟨hb, hs⟩ := hk hplain.1.2 hplain.2
    have hfirst : afterStatement 0 true (tokens.drop position) =
        afterStatement (statementDepth 0 k) false (tokens.drop (position + 1)) := by
      rw [hd, afterStatement_step hb hs (.inl rfl)]
    have hskip := loop_statementTurn 0 false (Nat.le_of_lt hp)
    rw [Bool.not_false, hfirst] at hskip
    rw [run_bind, run_bind_eq]
    exact hskip.bind fun _ _ after _ ha _ => .done rfl ha rfl

theorem declarationFrom_agrees {head : Head} {k : Token} {position : Nat}
    (h : ReadsFrom nested true tokens (position + 1)) (hg : tokens[position]? = some k)
    (hk : head.attributes = [] → head.modifiers = [] → k.kind ≠ .rightBrace ∧ k.kind ≠ .semicolon) :
    Agrees tokens Eq ((declarationFrom nested strict head k).run tokens position)
      (declarationAfter strict head k (tokens.drop (position + 1))) := by
  have ht := ne_nil_of_getElem? hg
  obtain ⟨hp, -⟩ := drop_of_getElem? hg
  rw [declarationFrom, declarationAfter]
  cases hi : Introducer.ofToken? k with
  | none => exact follows_statement hg hk
  | some introducer =>
    have hkeyword := run_consumeKind hg (identifier_of_introducer hi)
    cases introducer with
    | type keyword =>
      simp only
      rw [run_bind, hkeyword, bind_done, run_bind]
      refine (follows_typeHeader keyword ht hp).bind fun header _ inside hx hi hr => ?_
      subst hx
      rw [run_bind]
      refine (membersAfter_agrees (h.mono (le_of_run hp hi hr)) [] hi).bind fun members _ after hm ha _ => ?_
      subst hm
      exact .done rfl ha rfl
    | variableList keyword =>
      simp only
      rw [run_bind, hkeyword, bind_done]
      exact ((follows_separatedByCommas follows_binding).bind fun _ => follows_pure rfl) ht hp
    | function =>
      simp only
      rw [run_bind, hkeyword, bind_done]
      exact (follows_function.bind fun _ => follows_pure rfl) ht hp
    | other keyword =>
      simp only
      rw [run_bind, hkeyword, bind_done]
      exact ((follows_otherName keyword).bind fun _ => follows_pure rfl) ht hp

end Blocks

section Files

variable {tokens : List Token}

/-- Declarations are read as from suffixes if they may be nested as deeply as there are tokens left. -/
theorem declarationWithin_reads (limit : Nat) (strict : Bool) (start : Nat) (h : tokens.length - start ≤ limit) :
    ReadsFrom (declarationWithin limit strict) strict tokens start := by
  induction limit generalizing strict start with
  | zero =>
    intro position t hs hg _ _
    have := (drop_of_getElem? hg).1
    omega
  | succ limit ih =>
    intro position t hs hg hb hsemi
    have ht := ne_nil_of_getElem? hg
    obtain ⟨hp, hd⟩ := drop_of_getElem? hg
    have hnested (strict : Bool) : ReadsFrom (declarationWithin limit strict) strict tokens (position + 1) :=
      ih strict (position + 1) (by omega)
    rw [declarationWithin, declarationRun_eq, run_bind, run_current hg, bind_done]
    split
    · next hk =>
      split
      · next hi =>
        rw [run_bind]
        refine (conditional_agrees (hnested strict) hg hk hi).bind fun block _ after hx ha _ => ?_
        subst hx
        exact .done rfl ha rfl
      · rw [run_bind]
        exact (takes_directive hg (by simpa using hk)).bind fun _ _ after _ ha _ => .done rfl ha rfl
    · rw [run_bind, ← hd]
      refine (follows_head t ht (Nat.le_of_lt hp)).bind fun head _ after hx ha hr => ?_
      subst hx
      have hle := le_of_run (Nat.le_of_lt hp) ha hr
      rw [run_bind, run_peek, Nat.add_zero, bind_done]
      rcases position_cases tokens after with ⟨hg', hd'⟩ | ⟨k, hg', hnext, hd'⟩
      · rw [hg', hd']
        exact .fault _
      · rw [hg', hd']
        refine declarationFrom_agrees ((hnested true).mono (by omega)) hg' fun hattributes hmodifiers => ?_
        have hfirst := headFrom_empty hr hattributes hmodifiers
        rw [hd, hd'] at hfirst
        rw [(List.cons.inj hfirst).1]
        exact ⟨hb, hsemi⟩

theorem topLevel_nil : topLevel [] = .ok [] := by
  rw [topLevel]

theorem loop_fileTurn {limit start : Nat} (h : ReadsFrom (declarationWithin limit false) false tokens start)
    (found : List Decl) (hp : start ≤ tokens.length) :
    Agrees tokens (Appended found) ((loop (fileTurn limit) found).run tokens start)
      ((topLevel (tokens.drop start)).map (·, [])) := by
  refine loop_agrees (fun found => found) Appended (fun _ after => (topLevel (tokens.drop after)).map (·, []))
    (fun found position hs hp again => ?_) found hp
  rw [fileTurn, run_bind]
  rcases position_cases tokens position with ⟨hg, hd⟩ | ⟨t, hg, hnext, hd⟩
  · rw [run_atEnd_of_none hg, bind_done, hd, topLevel_nil]
    exact .done (appended_nil found) hp hd.symm
  · rw [run_atEnd_of_some hg, bind_done, if_neg Bool.false_ne_true, hd, topLevel_eq, run_bind, run_nextIs,
      Nat.add_zero, bind_done, hg, Option.any_some]
    by_cases hsemi : t.kind = .semicolon
    · rw [if_pos (by simpa using hsemi), if_pos hsemi, run_bind, run_consume hg, bind_done]
      exact again found (position + 1) (by omega) hnext
    · rw [if_neg (by simpa using hsemi), if_neg hsemi, run_bind, run_nextIs, Nat.add_zero, bind_done, hg,
        Option.any_some]
      by_cases hb : t.kind = .rightBrace
      · rw [if_pos (by simpa using hb), if_pos hb, run_bind, run_consume hg]
        exact .fault _
      · have hmap : (declarationRun false t (tokens.drop (position + 1)) >>= fun d =>
              (topLevel d.2).map (d.1.toList ++ ·)).map (·, []) =
            declarationRun false t (tokens.drop (position + 1)) >>= fun d => (topLevel d.2).map (·, []) >>= fun m =>
              (.ok (d.1.toList ++ m.1, m.2) : Except Fault (List Decl × List Token)) := by
          cases declarationRun false t (tokens.drop (position + 1)) with
          | error fault => rfl
          | ok d =>
            change ((topLevel d.2).map _).map _ = (topLevel d.2).map _ >>= _
            cases topLevel d.2 <;> rfl
        rw [if_neg (by simpa using hb), if_neg hb, run_bind, bind_assoc, hmap]
        refine (h hs hg hb hsemi).bind fun member _ after hx ha hr => ?_
        subst hx
        refine (again _ after (lt_of_declarationRun hnext ha hr) ha).map (member.toList ++ ·) fun xs ds hds => ?_
        rw [Appended, hds, List.append_assoc]

/-- At a closing brace nothing is read, and nothing taken. Loops that read declarations look for one first. -/
theorem declarationWithin_brace {limit position : Nat} {t : Token} (hg : tokens[position]? = some t)
    (hb : t.kind = .rightBrace) :
    (declarationWithin (limit + 1) false).run tokens position = .done none position := by
  obtain ⟨hp, hd⟩ := drop_of_getElem? hg
  have hhead : (headFrom t).run (tokens.drop position) = .ok (⟨[], [], t.position⟩, tokens.drop position) := by
    have hnone : Reader.attributes.run (t :: tokens.drop (position + 1)) = .ok ([], t :: tokens.drop (position + 1)) :=
      whileNext_skip (by simp [hb])
    have hsplit : splitModifiers (t :: tokens.drop (position + 1)) = ([], t :: tokens.drop (position + 1)) := by
      rw [splitModifiers, if_neg (by simp [Token.isOneOf, hb])]
    rw [hd]
    exact run_bind_eq_ok.2 ⟨_, _, hnone, run_bind_eq_ok.2 ⟨_, _, congrArg Except.ok hsplit, rfl⟩⟩
  have hcursor : (head t).run tokens position = .done ⟨[], [], t.position⟩ position := by
    have h := follows_head t (ne_nil_of_getElem? hg) (Nat.le_of_lt hp)
    rw [hhead] at h
    obtain ⟨_, after, hrun, rfl, ha, hd'⟩ := h.ended
    have hlength := congrArg List.length hd'
    simp only [List.length_drop] at hlength
    rw [hrun, show after = position by omega]
  have hskip : skipStatement.run tokens position = .done () position := by
    rw [skipStatement, run_loop, statementTurn, run_bind, run_atEnd_of_some hg, bind_done, if_neg Bool.false_ne_true,
      run_bind, run_current hg, bind_done, if_pos (by simp [hb])]
    rfl
  have hi : Introducer.ofToken? t = none := by
    rw [Introducer.ofToken?, hb]
    rfl
  rw [declarationWithin, run_bind, run_current hg, bind_done, if_neg (by simp [hb]), run_bind, hcursor, bind_done,
    run_bind, run_peek, Nat.add_zero, bind_done, hg]
  simp only [declarationFrom, hi]
  rw [if_neg (by simp), run_bind, hskip]
  rfl

/-- A file is read to its end or has a fault, and so is each declaration in it, behind which the position is further
on. Nothing breaks down, and it does not matter how much more deeply than there are tokens declarations may be nested. -/
theorem reading_moves_on (tokens : List Token) (limit : Nat) (hlimit : tokens.length ≤ limit) :
    ((fileWithin limit).run tokens 0 =
      match topLevel tokens with
      | .ok found => .done found tokens.length
      | .error fault => .fault fault) ∧
    ∀ (strict : Bool) (position : Nat) (t : Token), tokens[position]? = some t → t.kind ≠ .rightBrace →
      t.kind ≠ .semicolon →
        (∃ fault, (declarationWithin limit strict).run tokens position = .fault fault ∧
          declarationRun strict t (tokens.drop (position + 1)) = .error fault) ∨
        ∃ found after, (declarationWithin limit strict).run tokens position = .done found after ∧
          position < after ∧ after ≤ tokens.length ∧ (strict = true → found.isSome = true) ∧
          declarationRun strict t (tokens.drop (position + 1)) = .ok (found, tokens.drop after) := by
  have hreads (strict : Bool) : ReadsFrom (declarationWithin limit strict) strict tokens 0 :=
    declarationWithin_reads limit strict 0 hlimit
  constructor
  · have h := loop_fileTurn (hreads false) [] (Nat.zero_le _)
    rw [List.drop_zero] at h
    cases htop : topLevel tokens with
    | error fault =>
      rw [htop] at h
      exact h.faulted
    | ok found =>
      rw [htop] at h
      obtain ⟨_, after, hrun, rfl, ha, hd⟩ := h.ended
      have hend := List.drop_eq_nil_iff.1 hd.symm
      rw [fileWithin, hrun, Nat.le_antisymm ha hend]
  · intro strict position t hg hb hsemi
    have h := hreads strict (Nat.zero_le _) hg hb hsemi
    cases hr : declarationRun strict t (tokens.drop (position + 1)) with
    | error fault =>
      rw [hr] at h
      exact .inl ⟨fault, h.faulted, rfl⟩
    | ok p =>
      rw [hr] at h
      obtain ⟨found, rest⟩ := p
      obtain ⟨_, after, hrun, rfl, ha, rfl⟩ := h.ended
      refine .inr ⟨_, after, hrun, lt_of_declarationRun (drop_of_getElem? hg).1 ha hr, ha, fun hs => ?_, rfl⟩
      subst hs
      exact isSome_of_strict hr

/-- The tokens of `class A { ; } )}`. -/
def unruly : List Token :=
  [⟨.identifier, "class", "", .origin⟩, ⟨.identifier, "A", " ", ⟨⟨1, 7⟩, 6⟩⟩, ⟨.leftBrace, "\x7b", " ", ⟨⟨1, 9⟩, 8⟩⟩,
    ⟨.semicolon, ";", " ", ⟨⟨1, 11⟩, 10⟩⟩, ⟨.rightBrace, "\x7d", " ", ⟨⟨1, 13⟩, 12⟩⟩,
    ⟨.rightParen, ")", " ", ⟨⟨1, 15⟩, 14⟩⟩, ⟨.rightBrace, "\x7d", "", ⟨⟨1, 16⟩, 15⟩⟩]

/-- The type is read through its closing brace, and the stray brackets behind it are one statement. -/
theorem unruly_moves_on :
    let type := Decl.group ⟨[], [], ⟨1, 1⟩⟩ ⟨.classType, "A", none, []⟩ []
    topLevel unruly = .ok [type] ∧
    declarationRun true ⟨.identifier, "class", "", .origin⟩ (unruly.drop 1) = .ok (some type, unruly.drop 5) ∧
    declarationRun false ⟨.rightParen, ")", " ", ⟨⟨1, 15⟩, 14⟩⟩ (unruly.drop 6) = .ok (none, unruly.drop 7) := by
  intro type
  obtain ⟨hfile, hdeclaration⟩ := reading_moves_on unruly 7 (by decide)
  refine ⟨?_, ?_, ?_⟩
  · have hrun : (fileWithin 7).run unruly 0 = .done [type] 7 := by cbv
    rw [hrun] at hfile
    cases htop : topLevel unruly with
    | error fault =>
      rw [htop] at hfile
      cases hfile
    | ok found =>
      rw [htop] at hfile
      cases hfile
      rfl
  · have hrun : (declarationWithin 7 true).run unruly 0 = .done (some type) 5 := by cbv
    rcases hdeclaration true 0 _ rfl (by decide) (by decide) with ⟨_, h, -⟩ | ⟨_, _, h, -, -, -, hr⟩
    · cases hrun.symm.trans h
    · cases hrun.symm.trans h
      exact hr
  · have hrun : (declarationWithin 7 false).run unruly 5 = .done none 7 := by cbv
    rcases hdeclaration false 5 _ rfl (by decide) (by decide) with ⟨_, h, -⟩ | ⟨_, _, h, -, -, -, hr⟩
    · cases hrun.symm.trans h
    · cases hrun.symm.trans h
      exact hr

end Files

end Cursor

end TestHooks.Swift
