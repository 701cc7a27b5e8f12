import TestHooks.Proofs.Cursor

/-!
# Phrases by position

Groups, statements, types, expressions and conditions are taken token by token, with the number of open brackets as the
state of a loop. The number of a statement may fall below zero at a stray closing bracket; those of types and
expressions cannot, since such a bracket ends them. Each cursor follows the reader of the same phrase.
-/

namespace TestHooks.Swift

open TestHooks.Reader Reader

namespace Cursor

/-! ### Taking phrases -/

/-- The partner of an opening bracket. -/
def closerOf? : TokenKind → Option TokenKind
  | .leftBrace => some .rightBrace
  | .leftParen => some .rightParen
  | .leftBracket => some .rightBracket
  | .leftAngle => some .rightAngle
  | _ => none

def closerOf (kind : TokenKind) : Cursor TokenKind :=
  match closerOf? kind with
  | some closer => pure closer
  | none => breakDown .unknownBracket

def groupTurn (opener : Token) (closer : TokenKind) (depth : Int) : Cursor (Turn Int Token) := do
  match ← peek 0 with
  | none => raise (opener.fault (.unclosed opener.text))
  | some t =>
    let _ ← consume
    if t.kind = opener.kind then pure (.again (depth + 1))
    else if t.kind = closer then
      if depth - 1 = 0 then pure (.leave t) else pure (.again (depth - 1))
    else pure (.again depth)

/-- Takes a group in brackets. The value is its closing bracket. -/
def skipGroup : Cursor Token := do
  let opener ← consume
  let closer ← closerOf opener.kind
  loop (groupTurn opener closer) 1

/-- The text of a group in brackets. -/
def groupText : Cursor String := do
  let start ← here
  let _ ← skipGroup
  textSince start

/-- The state is the number of open brackets, and whether a token has been taken. -/
def statementTurn : Int × Bool → Cursor (Turn (Int × Bool) Unit)
  | (depth, begun) => do
    if ← atEnd then pure (.leave ())
    else
      let t ← current
      if depth = 0 && t.kind == .rightBrace then pure (.leave ())
      else if depth = 0 && t.kind == .semicolon then
        let _ ← consume
        pure (.leave ())
      else if depth = 0 && begun && t.newlineBefore && t.startsDeclaration then pure (.leave ())
      else
        let _ ← consume
        pure (.again (statementDepth depth t, true))

/-- Takes a statement. A closing brace at its front is left where it is. -/
def skipStatement : Cursor Unit := loop statementTurn (0, false)

/-- The phrase that `scan` takes, which tells its last token; an empty one is a fault of the next token. -/
def phraseOf (scan : Cursor (Option Token)) (missing : Cause) : Cursor String := do
  let start ← here
  let first ← peek 0
  match ← scan with
  | some _ => textSince start
  | none =>
    match first with
    | some t => raise (t.fault missing)
    | none => raise ⟨missing, .lastToken⟩

/-- The brackets open after the token in a type, when `depth` are open before it. -/
def typeLevel (depth : Int) (t : Token) : Int :=
  if t.kind == .leftParen || t.kind == .leftBracket || t.kind == .leftAngle then depth + 1
  else if t.kind == .rightParen || t.kind == .rightBracket || t.kind == .rightAngle then depth - 1
  else depth

/-- The state is the number of open brackets, and the last token taken. -/
def typeTurn (stops : List String) : Int × Option Token → Cursor (Turn (Int × Option Token) (Option Token))
  | (depth, last) => do
    if ← atEnd then pure (.leave last)
    else
      let t ← current
      if depth = 0 && (t.endsType || t.isOneOf stops || t.breaksType last) then pure (.leave last)
      else
        let taken ← consume
        pure (.again (typeLevel depth t, some taken))

def typeText (stops : List String) : Cursor String := phraseOf (loop (typeTurn stops) (0, none)) .expectedType

def expressionTurn : Int × Option Token → Cursor (Turn (Int × Option Token) (Option Token))
  | (depth, last) => do
    if ← atEnd then pure (.leave last)
    else
      let t ← current
      let observed ← nextIs (·.isOneOf ["willSet", "didSet"]) 1
      if depth = 0 && (t.kind == .comma || t.kind == .semicolon || t.closesBracket ||
          (last.isSome && t.newlineBefore && t.startsDeclaration) || (t.kind == .leftBrace && observed)) then
        pure (.leave last)
      else
        let taken ← consume
        pure (.again (statementDepth depth t, some taken))

def expressionText : Cursor String := phraseOf (loop expressionTurn (0, none)) .expectedExpression

/-- The state is the last token taken. -/
def conditionTurn (directive : Token) (last : Option Token) : Cursor (Turn (Option Token) (Option Token)) := do
  if ← atEnd then pure (.leave last)
  else
    let t ← current
    if last.isSome && t.newlineBefore then pure (.leave last)
    else if last.isNone && t.newlineBefore then raise (directive.fault (.expectedCondition directive.text))
    else
      let taken ← consume
      pure (.again (some taken))

/-- The condition of a directive: the rest of its line. -/
def condition (directive : Token) : Cursor String := do
  let start ← here
  match ← loop (conditionTurn directive) none with
  | some _ => textSince start
  | none => raise (directive.fault (.expectedCondition directive.text))

/-! ### Groups -/

section Groups

variable {tokens : List Token} {position : Nat}

/-- The rest of a group, inside `depth` more groups. -/
def groupRest (opener : Token) (closer : TokenKind) (depth : Nat) (ts : List Token) :
    Except Fault (List Token × List Token) :=
  match splitGroup opener.kind closer depth ts with
  | some (inside, rest) => .ok (inside, rest)
  | none => .error (opener.fault (.unclosed opener.text))

theorem groupRest_map {opener : Token} {closer : TokenKind} {depth : Nat} (t : Token) (ts : List Token) :
    (match (splitGroup opener.kind closer depth ts).map fun p => (t :: p.1, p.2) with
      | some (inside, rest) => (.ok (inside, rest) : Except Fault (List Token × List Token))
      | none => .error (opener.fault (.unclosed opener.text))) =
      groupRest opener closer depth ts >>= fun p => .ok (t :: p.1, p.2) := by
  rw [groupRest]
  cases splitGroup opener.kind closer depth ts <;> rfl

theorem loop_groupTurn (opener : Token) (closer : TokenKind) (depth : Nat) (hp : position ≤ tokens.length) :
    Agrees tokens (fun last inside => inside.getLast? = some last)
      ((loop (groupTurn opener closer) (depth + 1)).run tokens position)
      (groupRest opener closer depth (tokens.drop position)) := by
  refine loop_agrees (fun depth : Nat => (depth + 1 : Int)) (fun _ last inside => inside.getLast? = some last)
    (fun depth after => groupRest opener closer depth (tokens.drop after)) (fun depth position _ hp again => ?_) depth hp
  rw [groupTurn, run_bind, run_peek, Nat.add_zero, bind_done]
  rcases position_cases tokens position with ⟨hg, hd⟩ | ⟨t, hg, hl, hd⟩
  · rw [hg, hd]
    exact .fault _
  · have hnext (d : Nat) :
        Agrees tokens (fun last inside => inside.getLast? = some last)
          (afterTurn (groupTurn opener closer) tokens position (.again (d + 1)) (position + 1))
          (groupRest opener closer d (tokens.drop (position + 1)) >>= fun p => .ok (t :: p.1, p.2)) :=
      (again d (position + 1) (by omega) hl).map _ fun last inside hlast => by simp [List.getLast?_cons, hlast]
    rw [hg, hd, groupRest]
    unfold splitGroup
    simp only
    rw [run_bind, run_consume hg, bind_done]
    split
    · rw [groupRest_map]
      exact hnext (depth + 1)
    · split
      · cases depth with
        | zero => exact .done rfl hl rfl
        | succ d =>
          have hdepth : ((d + 1 : Nat) : Int) + 1 - 1 = d + 1 := by omega
          rw [groupRest_map, if_neg (by omega), hdepth]
          exact hnext d
      · rw [groupRest_map]
        exact hnext depth

theorem takes_skipGroup {kind closer : TokenKind} {test : Token → Bool} (hc : closerOf? kind = some closer)
    (ht : ∀ t, test t = true → t.kind = kind) :
    TakesBy (fun last inside => inside.getLast? = some last) test skipGroup (group closer) := by
  intro tokens position t hg htest
  have hk := ht t htest
  have hcloser : (closerOf t.kind).run tokens (position + 1) = .done closer (position + 1) := by
    rw [closerOf, hk, hc]
    rfl
  rw [skipGroup, run_bind, run_consume hg, bind_done, run_bind, hcloser, bind_done]
  have h := loop_groupTurn t closer 0 (drop_of_getElem? hg).1
  rw [Int.natCast_zero, Int.zero_add] at h
  simp only [groupRest] at h
  simp only [group]
  cases hsplit : splitGroup t.kind closer 0 (tokens.drop (position + 1)) with
  | none =>
    rw [hsplit] at h
    rw [h.faulted]
    exact .fault _
  | some p =>
    rw [hsplit] at h
    obtain ⟨last, after, hrun, hlast, ha, hd⟩ := h.ended
    rw [hrun]
    exact .done (by simp [List.getLast?_cons, hlast]) ha hd

/-- A group is its opening bracket and what follows up to its closing one. -/
theorem group_eq_ok {closer : TokenKind} {opener : Token} {ts inside rest : List Token}
    (h : (group closer opener).run ts = .ok (inside, rest)) : ∃ taken, inside = opener :: taken ∧ taken ++ rest = ts := by
  simp only [group] at h
  split at h
  · next taken left hs =>
    cases h
    exact ⟨taken, rfl, splitGroup_append hs⟩
  · cases h

theorem takes_groupText {kind closer : TokenKind} {test : Token → Bool} (hc : closerOf? kind = some closer)
    (ht : ∀ t, test t = true → t.kind = kind) :
    TakesBy (fun text inside => text = phrase inside) test groupText (group closer) := by
  intro tokens position t hg htest
  rw [groupText, run_bind, run_here, bind_done, run_bind]
  have h := takes_skipGroup hc ht hg htest
  generalize hr : (group closer t).run (tokens.drop (position + 1)) = r at h
  generalize skipGroup.run tokens position = e at h
  cases h with
  | fault f => exact .fault f
  | @done _ inside after _ _ ha hd =>
    subst hd
    obtain ⟨taken, rfl, happend⟩ := group_eq_ok hr
    have htaken : tokens.drop position = t :: taken ++ tokens.drop after := by
      rw [(drop_of_getElem? hg).2, ← happend]
      rfl
    rw [bind_done, run_textSince ha htaken (List.cons_ne_nil _ _)]
    exact .done rfl ha rfl

end Groups

/-! ### Statements -/

section Statements

variable {tokens : List Token} {position : Nat}

theorem loop_statementTurn (depth : Int) (begun : Bool) (hp : position ≤ tokens.length) :
    Agrees tokens (fun _ _ => True) ((loop statementTurn (depth, begun)).run tokens position)
      (.ok ((), afterStatement depth (!begun) (tokens.drop position))) := by
  refine loop_agrees (fun s => s) (fun _ _ _ => True)
    (fun s after => .ok ((), afterStatement s.1 (!s.2) (tokens.drop after))) (fun ⟨depth, begun⟩ position _ hp again => ?_)
    (depth, begun) hp
  rw [statementTurn, run_bind]
  rcases position_cases tokens position with ⟨hg, hd⟩ | ⟨t, hg, hl, hd⟩
  · rw [run_atEnd_of_none hg, bind_done, hd, afterStatement]
    exact .done trivial hp hd.symm
  · rw [run_atEnd_of_some hg, bind_done, if_neg Bool.false_ne_true, run_bind, run_current hg, bind_done, hd,
      afterStatement, Bool.not_not]
    split
    · exact .done trivial hp hd.symm
    · split
      · rw [run_bind, run_consume hg]
        exact .done trivial hl rfl
      · split
        · exact .done trivial hp hd.symm
        · rw [run_bind, run_consume hg, bind_done]
          exact again (_, true) (position + 1) (by omega) hl

theorem follows_skipStatement : FollowsBy (fun _ _ => True) skipStatement statement :=
  fun _ _ _ hp => loop_statementTurn 0 false hp

end Statements

/-! ### Types and expressions -/

/-- The scan tells whether it has taken anything, and takes what `cut` cuts off. -/
theorem follows_phraseOf {scan : Cursor (Option Token)} {cut : List Token → List Token × List Token}
    {h : ∀ ts, (cut ts).1 ++ (cut ts).2 = ts}
    (hs : FollowsBy (fun last taken => last.isSome = !taken.isEmpty) scan (TestHooks.Reader.split cut h)) (missing : Cause) :
    Follows (phraseOf scan missing) (phraseBy cut h missing) := by
  intro tokens position ht hp
  rw [phraseOf, run_bind, run_here, bind_done, run_bind, run_peek, Nat.add_zero, bind_done, run_bind]
  have hscan := hs ht hp
  have happend := h (tokens.drop position)
  simp only [TestHooks.Reader.split] at hscan
  simp only [phraseBy]
  rcases hcut : cut (tokens.drop position) with ⟨taken, rest⟩
  rw [hcut] at hscan happend
  obtain ⟨last, after, hrun, hlast, ha, hd⟩ := hscan.ended
  rw [hrun, bind_done]
  cases taken with
  | nil =>
    cases last with
    | some t => cases hlast
    | none =>
      rw [List.nil_append] at happend
      rcases position_cases tokens position with ⟨hg, hd'⟩ | ⟨t, hg, -, hd'⟩ <;>
      · rw [hg]
        rw [hd'] at happend
        subst happend
        exact .fault _
  | cons t ts =>
    cases last with
    | none => cases hlast
    | some u =>
      subst hd
      simp only
      rw [run_textSince ha happend.symm (List.cons_ne_nil _ _)]
      exact .done rfl ha rfl

section Types

variable {tokens : List Token} {position : Nat}

theorem typeLevel_eq {depth : Nat} {t : Token} (h : ¬(depth = 0 ∧ t.endsType = true)) :
    typeLevel depth t = typeDepth depth t := by
  rw [typeLevel, typeDepth]
  split
  · rfl
  · split
    · next hc =>
      have hdepth : depth ≠ 0 := by
        rintro rfl
        refine h ⟨rfl, ?_⟩
        simp only [Bool.or_eq_true] at hc
        rw [Token.endsType]
        rcases hc with (hc | hc) | hc <;> simp [hc]
      omega
    · rfl

/-- What a scan with `last` taken before takes tells whether anything is taken. -/
def Told (last final : Option Token) (taken : List Token) : Prop := final.isSome = (last.isSome || !taken.isEmpty)

theorem told_nil (last : Option Token) : Told last last [] := by
  simp [Told]

theorem Told.cons {last final : Option Token} {t : Token} {taken : List Token} (h : Told (some t) final taken) :
    Told last final (t :: taken) := by
  rw [Told, h]
  simp

theorem loop_typeTurn (stops : List String) (depth : Nat) (last : Option Token) (hp : position ≤ tokens.length) :
    Agrees tokens (Told last) ((loop (typeTurn stops) (depth, last)).run tokens position)
      (.ok (splitType stops depth last (tokens.drop position))) := by
  refine loop_agrees (fun s : Nat × Option Token => ((s.1 : Int), s.2)) (fun s => Told s.2)
    (fun s after => .ok (splitType stops s.1 s.2 (tokens.drop after))) (fun ⟨depth, last⟩ position _ hp again => ?_)
    (depth, last) hp
  rw [typeTurn, run_bind]
  rcases position_cases tokens position with ⟨hg, hd⟩ | ⟨t, hg, hl, hd⟩
  · rw [run_atEnd_of_none hg, bind_done, hd, splitType]
    exact .done (told_nil last) hp hd.symm
  · rw [run_atEnd_of_some hg, bind_done, if_neg Bool.false_ne_true, run_bind, run_current hg, bind_done, hd, splitType]
    have hdepth : (decide ((depth : Int) = 0)) = decide (depth = 0) := by simp
    rw [hdepth]
    split
    · exact .done (told_nil last) hp hd.symm
    · next hgoes =>
      have hlevel : ¬(depth = 0 ∧ t.endsType = true) := by
        rintro ⟨hz, he⟩
        simp [hz, he] at hgoes
      rw [run_bind, run_consume hg, bind_done, typeLevel_eq hlevel]
      exact (again (typeDepth depth t, some t) (position + 1) (by omega) hl).map (t :: ·) fun _ _ => Told.cons

theorem follows_typeText (stops : List String) : Follows (typeText stops) (Reader.typeText stops) :=
  follows_phraseOf (fun _ _ _ hp => (loop_typeTurn stops 0 none hp).mono fun _ _ h => h) _

end Types

section Expressions

variable {tokens : List Token} {position : Nat}

theorem statementDepth_eq {depth : Nat} {t : Token} (h : ¬(depth = 0 ∧ t.closesBracket = true)) :
    statementDepth depth t = expressionDepth depth t := by
  rw [statementDepth, expressionDepth]
  split
  · rfl
  · split
    · next hc =>
      have hdepth : depth ≠ 0 := fun hz => h ⟨hz, hc⟩
      omega
    · rfl

theorem loop_expressionTurn (depth : Nat) (last : Option Token) (hp : position ≤ tokens.length) :
    Agrees tokens (Told last) ((loop expressionTurn (depth, last)).run tokens position)
      (.ok (splitExpression depth last.isNone (tokens.drop position))) := by
  refine loop_agrees (fun s : Nat × Option Token => ((s.1 : Int), s.2)) (fun s => Told s.2)
    (fun s after => .ok (splitExpression s.1 s.2.isNone (tokens.drop after)))
    (fun ⟨depth, last⟩ position _ hp again => ?_) (depth, last) hp
  rw [expressionTurn, run_bind]
  rcases position_cases tokens position with ⟨hg, hd⟩ | ⟨t, hg, hl, hd⟩
  · rw [run_atEnd_of_none hg, bind_done, hd, splitExpression]
    exact .done (told_nil last) hp hd.symm
  · rw [run_atEnd_of_some hg, bind_done, if_neg Bool.false_ne_true, run_bind, run_current hg, bind_done, run_bind,
      run_nextIs, bind_done, hd, splitExpression]
    have hends : (decide ((depth : Int) = 0) && (t.kind == .comma || t.kind == .semicolon || t.closesBracket ||
        (last.isSome && t.newlineBefore && t.startsDeclaration) ||
          (t.kind == .leftBrace && tokens[position + 1]?.any (·.isOneOf ["willSet", "didSet"])))) =
        (decide (depth = 0) && t.endsExpression last.isNone (tokens.drop (position + 1))) := by
      simp [Token.endsExpression, List.head?_drop]
    rw [hends]
    split
    · exact .done (told_nil last) hp hd.symm
    · next hgoes =>
      have hlevel : ¬(depth = 0 ∧ t.closesBracket = true) := by
        rintro ⟨hz, hc⟩
        simp [hz, hc, Token.endsExpression] at hgoes
      rw [run_bind, run_consume hg, bind_done, statementDepth_eq hlevel]
      exact (again (expressionDepth depth t, some t) (position + 1) (by omega) hl).map (t :: ·) fun _ _ => Told.cons

theorem follows_expressionText : Follows expressionText Reader.expressionText :=
  follows_phraseOf (fun _ _ _ hp => (loop_expressionTurn 0 none hp).mono fun _ _ h => h) _

end Expressions

/-! ### Conditions -/

section Conditions

variable {tokens : List Token} {position : Nat}

theorem loop_conditionTurn (directive last : Token) (hp : position ≤ tokens.length) :
    Agrees tokens (fun final _ => final.isSome = true) ((loop (conditionTurn directive) (some last)).run tokens position)
      (.ok ((), (tokens.drop position).dropWhile (!·.newlineBefore))) := by
  refine loop_agrees some (fun _ (final : Option Token) _ => final.isSome = true)
    (fun _ after => .ok ((), (tokens.drop after).dropWhile (!·.newlineBefore))) (fun last position _ hp again => ?_)
    last hp
  rw [conditionTurn, run_bind]
  rcases position_cases tokens position with ⟨hg, hd⟩ | ⟨t, hg, hl, hd⟩
  · rw [run_atEnd_of_none hg, bind_done, hd]
    exact .done rfl hp hd.symm
  · rw [run_atEnd_of_some hg, bind_done, if_neg Bool.false_ne_true, run_bind, run_current hg, bind_done, hd,
      List.dropWhile_cons]
    cases hb : t.newlineBefore with
    | true => exact .done rfl hp hd.symm
    | false =>
      simp only [Bool.and_false, Bool.false_eq_true, if_false, Bool.not_false, if_true]
      rw [run_bind, run_consume hg, bind_done]
      exact again t (position + 1) (by omega) hl

theorem follows_condition (directive : Token) : Follows (condition directive) (Reader.condition directive) := by
  intro tokens position _ hp
  rw [condition, run_bind, run_here, bind_done, run_bind, run_loop, conditionTurn, run_bind]
  rcases position_cases tokens position with ⟨hg, hd⟩ | ⟨t, hg, hl, hd⟩
  · rw [run_atEnd_of_none hg, bind_done, hd]
    exact .fault _
  · rw [run_atEnd_of_some hg, bind_done, if_neg Bool.false_ne_true, run_bind, run_current hg, bind_done, hd]
    simp only [Reader.condition]
    cases hb : t.newlineBefore with
    | true =>
      exact .fault _
    | false =>
      simp only [Bool.and_false, Bool.false_eq_true, if_false]
      rw [run_bind, run_consume hg, bind_done, run_pure, bind_done, afterTurn_again (by omega) hl]
      obtain ⟨final, after, hrun, hfinal, ha, hdrop⟩ := (loop_conditionTurn directive t hl).ended
      obtain ⟨u, rfl⟩ := Option.isSome_iff_exists.1 hfinal
      have htaken : tokens.drop position =
          t :: (tokens.drop (position + 1)).takeWhile (!·.newlineBefore) ++ tokens.drop after := by
        rw [← hdrop, List.cons_append, List.takeWhile_append_dropWhile, hd]
      rw [hrun, bind_done]
      simp only
      rw [run_textSince ha htaken (List.cons_ne_nil _ _)]
      exact .done rfl ha hdrop

end Conditions

end Cursor

end TestHooks.Swift
