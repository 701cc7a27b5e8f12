import Mathlib.Data.List.TakeWhile
import TestHooks.Proofs.CursorPhrases
import TestHooks.Proofs.Lexing

/-!
# Headers by position

Attributes, modifiers, variables, signatures and the headers of types, read token by token. Each cursor follows the
reader of the same header, and whether a block lists accessors is found by looking ahead (`run_listsAhead`).
-/

namespace TestHooks.Swift

open TestHooks.Reader Reader

namespace Cursor

/-! ### Attributes and modifiers -/

/-- An attribute with its at-word. -/
def oneAttribute : Cursor Attribute := do
  let t ← consume
  let closing ← ifNext (fun p => p.kind == .leftParen && p.isAttached) skipGroup
  let last := closing.getD t
  pure ⟨String.ofList (t.text.toList.drop 1), t.start, last.stop⟩

def attributes : Cursor (List Attribute) := repeatWhile (·.kind == .atWord) oneAttribute

/-- The word in parentheses that may stand here. -/
def modifierDetail : Cursor (Option String) := do
  let opens ← nextIs (·.kind == .leftParen) 0
  let names ← nextIs (·.kind == .identifier) 1
  let closes ← nextIs (·.kind == .rightParen) 2
  if opens && names && closes then
    let _ ← consume
    let detail ← consume
    let _ ← consume
    pure (some detail.text)
  else pure none

def modifierTurn (found : List Modifier) : Cursor (Turn (List Modifier) (List Modifier)) := do
  if ← nextIs (·.isOneOf modifierWords) 0 then
    let t ← current
    let modifies ← nextIs (fun n => n.isOneOf modifierWords || n.isOneOf ["var", "let", "func", "subscript"]) 1
    if t.text == "class" && !modifies then pure (.leave found)
    else
      let _ ← consume
      let detail ← modifierDetail
      pure (.again (found ++ [⟨t.text, detail⟩]))
  else pure (.leave found)

def modifiers : Cursor (List Modifier) := loop modifierTurn []

/-! ### Variables -/

/-- The effect that the token names. An argument in parentheses is dropped. -/
def effect : Cursor (Option Effect) := do
  let t ← consume
  let _ ← ifNext (·.kind == .leftParen) skipGroup
  pure (effectOf? t)

def effects : Cursor (List Effect) := do
  let found ← repeatWhile (fun t => (effectOf? t).isSome) effect
  pure (found.filterMap id)

/-- The accessor that a token must name. -/
def accessorNamed (t : Token) : Cursor Accessor :=
  match accessorOf? t with
  | some named => pure named
  | none => raise (t.fault (.expectedAccessor t.text))

def accessor : Cursor Accessor := do
  let _ ← attributes
  consumeWhile (·.isOneOf accessorPrefixes)
  let t ← consumeKind .identifier
  let named ← accessorNamed t
  let _ ← ifNext (·.kind == .leftParen) skipGroup
  let _ ← effects
  let _ ← ifNext (·.kind == .leftBrace) skipGroup
  pure named

def accessorPrefixTurn (ahead : Nat) : Cursor (Turn Nat Nat) := do
  if ← nextIs (fun t => t.kind == .atWord || t.isOneOf accessorPrefixes) ahead then pure (.again (ahead + 1))
  else pure (.leave ahead)

/-- Looks whether the block that opens here lists accessors. -/
def listsAhead : Cursor Bool := do
  let ahead ← lookLoop accessorPrefixTurn 1
  if ← nextIs (fun t => (accessorOf? t).isSome) ahead then
    match ← peek (ahead + 1) with
    | none => pure true
    | some next =>
      if next.kind = .leftParen then
        let word ← demand (← peek ahead)
        pure (word.text != "get")
      else pure (next.kind == .leftBrace || next.kind == .rightBrace || next.kind == .identifier)
  else pure false

/-- The accessors of a block. A block that lists none is a getter. -/
def accessorBlock : Cursor (List Accessor) := do
  if ← listsAhead then
    let _ ← consumeKind .leftBrace
    let listed ← repeatUntil (·.kind == .rightBrace) accessor
    let _ ← consumeKind .rightBrace
    pure listed
  else
    let _ ← skipGroup
    pure [.get]

def bindingName : Cursor (String × Bool) := do
  match ← ifNext (·.kind == .leftParen) groupText with
  | some pattern => pure (pattern, true)
  | none =>
    let t ← consumeKind .identifier
    pure (t.text, false)

/-- A type behind a mark. -/
def typeAfterMark (stops : List String) : Cursor String := do
  let _ ← consume
  typeText stops

/-- An expression behind a mark. -/
def expressionAfterMark : Cursor String := do
  let _ ← consume
  expressionText

def binding : Cursor Binding := do
  let (name, isPattern) ← bindingName
  let type ← ifNext (·.kind == .colon) (typeAfterMark [])
  let initializer ← ifNext isAssignment expressionAfterMark
  let accessors ← ifNext (·.kind == .leftBrace) accessorBlock
  pure { name, type, initializer, accessors, isPattern }

/-! ### Functions -/

/-- The value is the last token taken. -/
def operatorTurn (last : Token) : Cursor (Turn Token Token) := do
  if ← nextIs continuesOperator 0 then
    let next ← consume
    pure (.again next)
  else pure (.leave last)

/-- The characters from the start of the first token to the end of the last. -/
def source : List Token → String
  | [] => ""
  | t :: ts => String.ofList (t.text.toList ++ Token.written ts)

def operatorName : Cursor String := do
  let start ← here
  match ← peek 0 with
  | none =>
    let _ ← lastToken
    raise ⟨.expectedFunctionName, .lastToken⟩
  | some first =>
    if startsOperator first then
      let last ← consume
      let _ ← loop operatorTurn last
      let taken ← tokensSince start
      pure (source taken)
    else raise (first.fault .expectedFunctionName)

def functionName : Cursor (String × Bool) := do
  match ← ifNext (·.kind == .identifier) consume with
  | some t => pure (t.text, false)
  | none =>
    let name ← operatorName
    pure (name, true)

def genericClause : Cursor (Option String) := ifNext (·.kind == .leftAngle) groupText

def parameter : Cursor Parameter := do
  let _ ← attributes
  let first ← consumeKind .identifier
  let second ← ifNext (·.kind == .identifier) consume
  let _ ← consumeKind .colon
  let type ← typeText []
  let defaultValue ← ifNext isAssignment expressionAfterMark
  pure { firstName := first.text, secondName := second.map Token.text, type, defaultValue }

def parameterTurn (found : List Parameter) : Cursor (Turn (List Parameter) (List Parameter)) := do
  if ← nextIs (·.kind == .rightParen) 0 then pure (.leave found)
  else
    let p ← parameter
    if ← nextIs (·.kind == .comma) 0 then
      let _ ← consume
      pure (.again (found ++ [p]))
    else pure (.leave (found ++ [p]))

def parameterClause : Cursor (List Parameter) := do
  let _ ← consumeKind .leftParen
  let found ← loop parameterTurn []
  let _ ← consumeKind .rightParen
  pure found

/-- A function after its keyword. -/
def function : Cursor Signature := do
  let (name, isOperator) ← functionName
  let generics ← genericClause
  let parameters ← parameterClause
  let effects ← effects
  let returnType ← ifNext (·.kind == .arrow) (typeAfterMark ["where"])
  let _ ← ifNext (·.isIdentifier "where") (consumeWhile fun t => t.kind != .leftBrace && t.kind != .rightBrace)
  let body ← ifNext (·.kind == .leftBrace) skipGroup
  pure { name, isOperator, generics, parameters, effects, returnType, hasBody := body.isSome }

/-! ### Types -/

def typeName (keyword : TypeKeyword) : Cursor (String × Option String) :=
  if keyword = .extensionType then do
    let name ← typeText ["where"]
    pure (name, none)
  else do
    let t ← consumeKind .identifier
    let generics ← genericClause
    pure (t.text, generics)

def inheritance : Cursor (List String) := do
  let inherited ← ifNext (·.kind == .colon) (do
    let _ ← consume
    separatedByCommas (typeText ["where"]))
  pure (inherited.getD [])

/-- The header of a type after its keyword, with the brace that opens its members. -/
def typeHeader (keyword : TypeKeyword) : Cursor TypeHeader := do
  let (name, generics) ← typeName keyword
  let inherited ← inheritance
  let _ ← ifNext (·.isIdentifier "where") (consumeWhile (·.kind != .leftBrace))
  let _ ← consumeKind .leftBrace
  pure { keyword, name, generics, inherited }

/-! ### Other declarations -/

def otherWord (keyword : String) : Cursor String := do
  let named ← nextIs (·.kind == .identifier) 0
  if !(["init", "deinit", "subscript"].contains keyword) && named then
    let t ← current
    pure t.text
  else pure ""

/-- The name of a declaration whose inside is skipped, after its keyword. -/
def otherName (keyword : String) : Cursor String := do
  let name ← otherWord keyword
  skipStatement
  pure name

/-- A directive that is no part of a conditional block. -/
def directive : Cursor Unit := do
  let t ← consumeKind .hashWord
  if ["#elseif", "#else", "#endif"].contains t.text then raise (t.fault (.unexpectedDirective t.text))
  else
    let _ ← ifNext (·.kind == .leftParen) skipGroup
    pure ()

/-! ### Following the readers of attributes and modifiers -/

theorem takes_parentheses : TakesBy (fun last inside => inside.getLast? = some last) (·.kind == .leftParen) skipGroup
    (group .rightParen) :=
  takes_skipGroup rfl fun _ ht => by simpa using ht

theorem takes_braces : TakesBy (fun last inside => inside.getLast? = some last) (·.kind == .leftBrace) skipGroup
    (group .rightBrace) :=
  takes_skipGroup rfl fun _ ht => by simpa using ht

theorem takes_oneAttribute (test : Token → Bool) : Takes test oneAttribute attributeAfter := by
  refine takes_consume fun t => ?_
  have hgroup : TakesBy (fun last inside => inside.getLast? = some last)
      (fun p => p.kind == .leftParen && p.isAttached) skipGroup (group .rightParen) :=
    takes_skipGroup rfl fun _ ht => by
      simp only [Bool.and_eq_true, beq_iff_eq] at ht
      exact ht.1
  refine (follows_ifNext hgroup).bind fun closing arguments h => follows_pure ?_
  cases h with
  | some hlast => simp [hlast]
  | none => rfl

theorem follows_attributes : Follows attributes Reader.attributes :=
  follows_repeatWhile (takes_oneAttribute _)

section Modifiers

variable {tokens : List Token} {position : Nat}

/-- A detail stands here if the next three tokens are a word in parentheses. -/
theorem modifierDetail?_drop : modifierDetail? (tokens.drop position) =
    if tokens[position]?.any (·.kind == .leftParen) && tokens[position + 1]?.any (·.kind == .identifier) &&
      tokens[position + 2]?.any (·.kind == .rightParen) then tokens[position + 1]?.map Token.text else none := by
  rw [modifierDetail?.eq_def]
  split
  · next a b c rest hd =>
    obtain ⟨ha, hrest⟩ := getElem?_of_drop hd
    obtain ⟨hb, hrest⟩ := getElem?_of_drop hrest.symm
    obtain ⟨hc, -⟩ := getElem?_of_drop hrest.symm
    rw [ha, hb, hc]
    rfl
  · next hshort =>
    rw [if_neg]
    intro hall
    simp only [Bool.and_eq_true, Option.any_eq_true] at hall
    obtain ⟨⟨⟨a, ha, -⟩, b, hb, -⟩, c, hc, -⟩ := hall
    refine hshort a b c (tokens.drop (position + 2 + 1)) ?_
    rw [(drop_of_getElem? ha).2, (drop_of_getElem? hb).2, (drop_of_getElem? hc).2]

theorem run_modifierDetail (hp : position ≤ tokens.length) :
    Agrees tokens Eq (modifierDetail.run tokens position)
      (.ok (modifierDetail? (tokens.drop position),
        (tokens.drop position).drop (if (modifierDetail? (tokens.drop position)).isSome then 3 else 0))) := by
  rw [modifierDetail, run_bind, run_nextIs, bind_done, run_bind, run_nextIs, bind_done, run_bind, run_nextIs, bind_done,
    Nat.add_zero, modifierDetail?_drop]
  split
  · next hall =>
    simp only [Bool.and_eq_true, Option.any_eq_true] at hall
    obtain ⟨⟨⟨a, ha, -⟩, b, hb, -⟩, c, hc, -⟩ := hall
    rw [run_bind, run_consume ha, bind_done, run_bind, run_consume hb, bind_done, run_bind, run_consume hc, hb]
    exact .done rfl (drop_of_getElem? hc).1 List.drop_drop
  · exact .done rfl hp rfl

theorem loop_modifierTurn (found : List Modifier) (hp : position ≤ tokens.length) :
    Agrees tokens (Appended found) ((loop modifierTurn found).run tokens position)
      (.ok (splitModifiers (tokens.drop position))) := by
  refine loop_agrees (fun found => found) Appended (fun _ after => .ok (splitModifiers (tokens.drop after)))
    (fun found position _ hp again => ?_) found hp
  rw [modifierTurn, run_bind, run_nextIs, Nat.add_zero, bind_done]
  rcases position_cases tokens position with ⟨hg, hd⟩ | ⟨t, hg, hl, hd⟩
  · rw [hg, hd, splitModifiers]
    exact .done (appended_nil found) hp hd.symm
  · have hmodifies : modifiesMember (tokens.drop (position + 1)) = tokens[position + 1]?.any fun n =>
        n.isOneOf modifierWords || n.isOneOf ["var", "let", "func", "subscript"] := by
      rcases position_cases tokens (position + 1) with ⟨hg', hd'⟩ | ⟨n, hg', -, hd'⟩ <;> rw [hg', hd'] <;> rfl
    rw [hg, hd, splitModifiers, Option.any_some]
    cases hw : t.isOneOf modifierWords with
    | false => exact .done (appended_nil found) hp hd.symm
    | true =>
      have hclass : (t.text == "class" && !modifiesMember (tokens.drop (position + 1))) =
          !(t.text != "class" || modifiesMember (tokens.drop (position + 1))) := by
        rw [Bool.not_or, bne, Bool.not_not]
      rw [if_pos rfl, run_bind, run_current hg, bind_done, run_bind, run_nextIs, bind_done, ← hmodifies, hclass,
        Bool.true_and]
      cases t.text != "class" || modifiesMember (tokens.drop (position + 1)) with
      | false => exact .done (appended_nil found) hp hd.symm
      | true =>
        simp only [Bool.not_true, Bool.false_eq_true, if_false, if_true]
        obtain ⟨_, after, hrun, rfl, ha, hdrop⟩ := (run_modifierDetail hl).ended
        have hlt : position < after := by
          have := congrArg List.length hdrop
          simp only [List.length_drop] at this
          omega
        rw [run_bind, run_consume hg, bind_done, run_bind, hrun, hdrop]
        exact (again _ after hlt ha).map (_ :: ·) fun _ _ => Appended.cons

theorem follows_modifiers : Follows modifiers Reader.modifiers :=
  fun _ _ _ hp => (loop_modifierTurn [] hp).mono fun _ _ h => h

end Modifiers

/-! ### Following the readers of variables -/

theorem takes_effect (test : Token → Bool) : Takes test effect fun t =>
    optionally (·.kind == .leftParen) (group .rightParen) >>= fun _ => pure (effectOf? t) :=
  takes_consume fun _ => (follows_ifNext takes_parentheses).bind fun _ _ _ => follows_pure rfl

theorem follows_effects : Follows effects Reader.effects :=
  (follows_repeatWhile (takes_effect _)).bind fun _ => follows_pure rfl

theorem follows_accessorNamed (t : Token) : Follows (accessorNamed t) (Reader.accessorNamed t) := by
  unfold accessorNamed Reader.accessorNamed
  cases accessorOf? t with
  | some named => exact follows_pure rfl
  | none => exact follows_raise _

theorem follows_accessor : Follows accessor Reader.accessor := by
  refine follows_attributes.bind fun _ => (follows_consumeWhile _).bind fun _ => ?_
  refine (follows_consumeKind _).bind fun t => (follows_accessorNamed t).bind fun named => ?_
  refine (follows_ifNext takes_parentheses).bind fun _ _ _ => follows_effects.bind fun _ => ?_
  exact (follows_ifNext takes_braces).bind fun _ _ _ => follows_pure rfl

section Accessors

variable {tokens : List Token} {position : Nat}

/-- Looking ahead ends at the first token that may not stand before the word of an accessor. -/
theorem run_accessorPrefixes (ahead : Nat) (hp : position + ahead ≤ tokens.length) :
    ∃ found, (lookLoop accessorPrefixTurn ahead).run tokens position = .done found position ∧
      tokens.drop (position + found) =
        (tokens.drop (position + ahead)).dropWhile fun t => t.kind == .atWord || t.isOneOf accessorPrefixes := by
  induction hn : tokens.length - (position + ahead) using Nat.strongRecOn generalizing ahead with
  | ind n ih =>
    rcases position_cases tokens (position + ahead) with ⟨hg, hd⟩ | ⟨t, hg, hl, hd⟩
    · refine ⟨ahead, run_lookLoop_leave ?_, by rw [hd]; rfl⟩
      rw [accessorPrefixTurn, run_bind, run_nextIs, hg]
      rfl
    · rw [hd, List.dropWhile_cons]
      by_cases ht : (t.kind == .atWord || t.isOneOf accessorPrefixes) = true
      · have hturn : (accessorPrefixTurn ahead).run tokens position = .done (.again (ahead + 1)) position := by
          rw [accessorPrefixTurn, run_bind, run_nextIs, hg, bind_done, Option.any_some, if_pos ht]
          rfl
        rw [if_pos ht, run_lookLoop_again hturn (by omega) (by omega)]
        exact ih (tokens.length - (position + (ahead + 1))) (by omega) _ (by omega) rfl
      · refine ⟨ahead, run_lookLoop_leave ?_, by rw [if_neg ht, hd]⟩
        rw [accessorPrefixTurn, run_bind, run_nextIs, hg, bind_done, Option.any_some, if_neg ht]
        rfl

theorem accessorOf_get {t : Token} {a : Accessor} (h : accessorOf? t = some a) : (a != .get) = (t.text != "get") := by
  unfold accessorOf? at h
  split at h
  · have ht : a.text = t.text := by simpa using List.find?_some h
    rw [← ht]
    cases a <;> decide
  · cases h

theorem run_listsAhead (hp : position + 1 ≤ tokens.length) :
    listsAhead.run tokens position = .done (listsAccessors (tokens.drop (position + 1))) position := by
  obtain ⟨found, hrun, hdrop⟩ := run_accessorPrefixes 1 hp
  rw [listsAhead, run_bind, hrun, bind_done, run_bind, run_nextIs, bind_done, listsAccessors, ← hdrop]
  rcases position_cases tokens (position + found) with ⟨hg, hd⟩ | ⟨t, hg, -, hd⟩
  · rw [hg, hd]
    rfl
  · rw [hg, hd, Option.any_some]
    simp only
    cases ha : accessorOf? t with
    | none => rfl
    | some a =>
      rw [Option.isSome_some, if_pos rfl, run_bind, run_peek, bind_done, ← Nat.add_assoc]
      rcases position_cases tokens (position + found + 1) with ⟨hg', hd'⟩ | ⟨next, hg', -, hd'⟩
      · rw [hg', hd']
        rfl
      · rw [hg', hd']
        simp only
        split
        · rw [run_bind, run_peek, bind_done, hg, accessorOf_get ha]
          rfl
        · rfl

theorem takes_accessorBlock : Takes (·.kind == .leftBrace) accessorBlock Reader.accessorBlock := by
  intro tokens position t hg ht
  have hk : t.kind = .leftBrace := by simpa using ht
  obtain ⟨hlt, hd⟩ := drop_of_getElem? hg
  rw [accessorBlock, run_bind, run_listsAhead hlt, bind_done]
  have hreader : (Reader.accessorBlock t).run (tokens.drop (position + 1)) =
      (if listsAccessors (tokens.drop (position + 1)) then listedAccessors
        else group .rightBrace t >>= fun _ => pure [.get]).run (tokens.drop (position + 1)) := rfl
  rw [hreader]
  split
  · rw [run_bind, run_consumeKind hg hk, bind_done]
    have hfollows : FollowsBy Eq (do
        let listed ← repeatUntil (·.kind == .rightBrace) accessor
        let _ ← consumeKind .rightBrace
        pure listed) listedAccessors :=
      (follows_repeatUntil strict_accessor follows_accessor).bind fun _ =>
        (follows_consumeKind _).bind fun _ => follows_pure rfl
    exact hfollows (ne_nil_of_getElem? hg) hlt
  · rw [run_bind, run_bind_eq]
    exact (takes_braces hg ht).bind fun _ _ _ _ ha _ => .done rfl ha rfl

end Accessors

theorem takes_parenthesesText :
    TakesBy (fun text inside => text = phrase inside) (·.kind == .leftParen) groupText (group .rightParen) :=
  takes_groupText rfl fun _ ht => by simpa using ht

theorem follows_bindingName : Follows bindingName Reader.bindingName := by
  refine (follows_ifNext takes_parenthesesText).bind fun text inside h => ?_
  cases h with
  | some h => exact follows_pure (by rw [h])
  | none => exact (follows_consumeKind _).bind fun _ => follows_pure rfl

theorem takes_typeAfterMark (test : Token → Bool) (stops : List String) :
    Takes test (typeAfterMark stops) fun _ => Reader.typeText stops :=
  takes_consume fun _ => follows_typeText stops

theorem takes_expressionAfterMark (test : Token → Bool) :
    Takes test expressionAfterMark fun _ => Reader.expressionText :=
  takes_consume fun _ => follows_expressionText

theorem follows_binding : Follows binding Reader.binding := by
  refine follows_bindingName.bind fun ⟨name, isPattern⟩ => (ifNext_eq (takes_typeAfterMark _ [])).bind fun type => ?_
  refine (ifNext_eq (takes_expressionAfterMark _)).bind fun initializer => ?_
  exact (ifNext_eq takes_accessorBlock).bind fun accessors => follows_pure rfl

/-! ### Following the readers of functions -/

section Operators

variable {tokens : List Token} {position : Nat}

theorem loop_operatorTurn (last : Token) (hp : position ≤ tokens.length) :
    Agrees tokens (fun _ _ => True) ((loop operatorTurn last).run tokens position)
      (.ok ((), (tokens.drop position).dropWhile continuesOperator)) := by
  refine loop_agrees (fun last => last) (fun _ _ _ => True)
    (fun _ after => .ok ((), (tokens.drop after).dropWhile continuesOperator)) (fun last position _ hp again => ?_) last hp
  rw [operatorTurn, run_bind, run_nextIs, Nat.add_zero, bind_done]
  rcases position_cases tokens position with ⟨hg, hd⟩ | ⟨t, hg, hl, hd⟩
  · rw [hg, hd]
    exact .done trivial hp hd.symm
  · rw [hg, hd, Option.any_some, List.dropWhile_cons]
    split
    · rw [run_bind, run_consume hg, bind_done]
      exact again t (position + 1) (by omega) hl
    · exact .done trivial hp hd.symm

/-- Nothing stands between tokens that are attached. -/
theorem source_attached (t : Token) {ts : List Token} (h : ∀ u ∈ ts, u.isAttached = true) :
    source (t :: ts) = String.join (t.text :: ts.map Token.text) := by
  have hwritten : Token.written ts = (ts.map Token.text).flatMap String.toList := by
    induction ts with
    | nil => rfl
    | cons u ts ih =>
      have hgap : u.gap = "" := by simpa [Token.isAttached] using h u List.mem_cons_self
      rw [Token.written_cons, ih fun v hv => h v (List.mem_cons_of_mem _ hv), hgap]
      rfl
  rw [← String.toList_inj, String.toList_join, source, String.toList_ofList, hwritten]
  rfl

theorem follows_operatorName : Follows operatorName Reader.operatorName := by
  intro tokens position hn hp
  rw [operatorName, run_bind, run_here, bind_done, run_bind, run_peek, Nat.add_zero, bind_done]
  rcases position_cases tokens position with ⟨hg, hd⟩ | ⟨t, hg, hl, hd⟩
  · have hrun : lastToken.run tokens position = .done (tokens.getLast hn) position := by
      change (demand tokens.getLast?).run tokens position = _
      rw [List.getLast?_eq_some_getLast hn]
      rfl
    rw [hg, hd]
    simp only
    rw [run_bind, hrun]
    exact .fault _
  · rw [hg, hd]
    simp only [Reader.operatorName]
    split
    · obtain ⟨_, after, hrun, -, ha, hdrop⟩ := (loop_operatorTurn t hl).ended
      have htaken : tokens.drop position =
          t :: (tokens.drop (position + 1)).takeWhile continuesOperator ++ tokens.drop after := by
        rw [← hdrop, List.cons_append, List.takeWhile_append_dropWhile, hd]
      have hattached : ∀ u ∈ (tokens.drop (position + 1)).takeWhile continuesOperator, u.isAttached = true := by
        intro u hu
        have hc := List.mem_takeWhile_imp hu
        rw [continuesOperator, Bool.and_eq_true] at hc
        exact hc.1
      rw [run_bind, run_consume hg, bind_done, run_bind, hrun, bind_done, run_bind,
        run_tokensSince ha htaken (List.cons_ne_nil _ _), bind_done, source_attached t hattached]
      exact .done rfl ha hdrop
    · exact .fault _

end Operators

theorem follows_functionName : Follows functionName Reader.functionName := by
  refine (ifNext_eq (takes_token _)).bind fun found => ?_
  cases found with
  | some t => exact follows_pure rfl
  | none => exact follows_operatorName.bind fun name => follows_pure rfl

theorem follows_genericClause : Follows genericClause Reader.genericClause := by
  have hangles : TakesBy (fun text inside => text = phrase inside) (·.kind == .leftAngle) groupText
      (group .rightAngle) :=
    takes_groupText rfl fun _ ht => by simpa using ht
  exact ifNext_eq (hangles.read phrase fun _ _ h => h)

theorem follows_parameter : Follows parameter Reader.parameter := by
  refine follows_attributes.bind fun _ => (follows_consumeKind _).bind fun first => ?_
  refine (ifNext_eq (takes_token _)).bind fun second => (follows_consumeKind _).bind fun _ => ?_
  refine (follows_typeText []).bind fun type => ?_
  exact (ifNext_eq (takes_expressionAfterMark _)).bind fun defaultValue => follows_pure rfl

section Parameters

variable {tokens : List Token} {position : Nat}

/-- What stands between the parentheses of a clause. Behind a last comma there is nothing. -/
theorem parameters_run (ts : List Token) : (byCommas parameterUnlessClosed).run ts =
    if ts.head?.any (·.kind == .rightParen) then .ok ([none], ts)
    else Reader.parameter.run ts >>= fun p =>
      whileNextRun (·.kind == .comma) (fun _ => parameterUnlessClosed) p.2 >>= fun others =>
        .ok (some p.1 :: others.1, others.2) := by
  have hunless : parameterUnlessClosed.run ts =
      if ts.head?.any (·.kind == .rightParen) then .ok (none, ts)
      else Reader.parameter.run ts >>= fun p => .ok (some p.1, p.2) := by
    change (if _ then _ else _ : Reader (Option Parameter)).run _ = _
    split
    · rfl
    · exact run_bind_eq _ _ _
  rw [byCommas_run, hunless]
  split
  · next hclosed =>
    obtain ⟨t, ht, hk⟩ := (Option.any_eq_true _ _).1 hclosed
    have hk : t.kind = .rightParen := by simpa using hk
    have hothers : whileNextRun (·.kind == .comma) (fun _ => parameterUnlessClosed) ts = .ok ([], ts) :=
      whileNext_skip (by simp [ht, hk])
    change whileNextRun _ _ ts >>= _ = _
    rw [hothers]
    rfl
  · cases Reader.parameter.run ts <;> rfl

theorem loop_parameterTurn (found : List Parameter) (hs : tokens ≠ []) (hp : position ≤ tokens.length) :
    Agrees tokens (fun xs ys => xs = found ++ ys.filterMap id) ((loop parameterTurn found).run tokens position)
      ((byCommas parameterUnlessClosed).run (tokens.drop position)) := by
  refine loop_agrees (fun found => found) (fun found xs ys => xs = found ++ ys.filterMap id)
    (fun _ after => (byCommas parameterUnlessClosed).run (tokens.drop after)) (fun found position _ hp again => ?_) found hp
  rw [parameterTurn, run_bind, run_nextIs, Nat.add_zero, bind_done, parameters_run, List.head?_drop]
  split
  · exact .done (List.append_nil _).symm hp rfl
  · rw [run_bind, bind_assoc]
    refine (follows_parameter hs hp).bind fun p _ after hx ha hr => ?_
    subst hx
    have hle := le_of_run hp ha hr
    rw [run_bind, run_nextIs, Nat.add_zero, bind_done]
    rcases position_cases tokens after with ⟨hg, hd⟩ | ⟨t, hg, hl, hd⟩
    · rw [hg, hd, whileNextRun]
      exact .done rfl ha hd.symm
    · rw [hg, hd, Option.any_some, whileNextRun_cons]
      split
      · rw [run_bind, run_consume hg, bind_done, ← byCommas_run]
        refine (again (found ++ [p]) (after + 1) (by omega) hl).map (some p :: ·) fun xs ys h => ?_
        rw [h, List.append_assoc]
        rfl
      · exact .done rfl ha hd.symm

theorem byCommas_bind {α β : Type} (p : Reader α) (f : List α → Reader β) (ts : List Token) :
    (byCommas p >>= f).run ts =
      (p >>= fun first => whileNext (·.kind == .comma) (fun _ => p) >>= fun others => f (first :: others)).run ts := by
  rw [run_bind_eq, byCommas_run, run_bind_eq]
  cases p.run ts with
  | error fault => rfl
  | ok first =>
    change (whileNextRun _ _ first.2 >>= _) >>= _ = (whileNext _ _ >>= _ : Reader β).run first.2
    rw [run_bind_eq]
    change _ = whileNextRun _ _ first.2 >>= _
    cases whileNextRun _ _ first.2 <;> rfl

theorem follows_parameterClause : Follows parameterClause Reader.parameterClause := by
  have hfollows : Follows parameterClause (token .leftParen >>= fun _ => byCommas parameterUnlessClosed >>= fun found =>
      token .rightParen >>= fun _ => pure (found.filterMap id)) := by
    refine (follows_consumeKind _).bind fun _ => FollowsBy.bind (R := fun xs ys => xs = ys.filterMap id)
      (fun _ _ hs hp => loop_parameterTurn [] hs hp) fun found ys h => ?_
    exact (follows_consumeKind _).bind fun _ => follows_pure h
  intro tokens position hs hp
  have h := hfollows hs hp
  rw [run_bind_eq] at h
  rw [Reader.parameterClause, run_bind_eq]
  simp only [byCommas_bind] at h
  exact h

/-- Requirements begin with a word. -/
theorem takes_requirements {test : Token → Bool} (h : ∀ t, t.kind = .identifier → test t = true) :
    Takes (·.isIdentifier "where") (consumeWhile test) fun _ => skipWhile test :=
  takes_consumeWhile fun t ht => by
    simp only [Token.isIdentifier, Bool.and_eq_true, beq_iff_eq] at ht
    exact h t ht.1

theorem follows_function : Follows function Reader.function := by
  refine follows_functionName.bind fun ⟨name, isOperator⟩ => follows_genericClause.bind fun generics => ?_
  refine follows_parameterClause.bind fun parameters => follows_effects.bind fun effects => ?_
  refine (ifNext_eq (takes_typeAfterMark _ _)).bind fun returnType => ?_
  refine (ifNext_eq (takes_requirements fun t ht => by simp [ht])).bind fun _ => ?_
  refine (follows_ifNext takes_braces).bind fun body inside h => follows_pure ?_
  have hbody : body.isSome = inside.isSome := by cases h <;> rfl
  rw [hbody]

end Parameters

/-! ### Following the readers of types and other declarations -/

theorem follows_typeName (keyword : TypeKeyword) : Follows (typeName keyword) (Reader.typeName keyword) := by
  unfold typeName Reader.typeName
  split
  · exact (follows_typeText _).bind fun name => follows_pure rfl
  · exact (follows_consumeKind _).bind fun t => follows_genericClause.bind fun generics => follows_pure rfl

theorem follows_inheritance : Follows inheritance Reader.inheritance := by
  have hinherited : Takes (·.kind == .colon) (consume >>= fun _ => separatedByCommas (typeText ["where"]))
      fun _ => byCommas (Reader.typeText ["where"]) :=
    takes_consume fun _ => follows_separatedByCommas (follows_typeText _)
  exact (ifNext_eq hinherited).bind fun inherited => follows_pure rfl

theorem follows_typeHeader (keyword : TypeKeyword) : Follows (typeHeader keyword) (Reader.typeHeader keyword) := by
  refine (follows_typeName keyword).bind fun ⟨name, generics⟩ => follows_inheritance.bind fun inherited => ?_
  refine (ifNext_eq (takes_requirements fun t ht => by simp [ht])).bind fun _ => ?_
  exact (follows_consumeKind _).bind fun _ => follows_pure rfl

theorem follows_otherName (keyword : String) : Follows (otherName keyword) (Reader.otherName keyword) := by
  intro tokens position hs hp
  have hword : (otherWord keyword).run tokens position =
      .done (match tokens[position]? with
        | some t => if t.kind = .identifier && !(["init", "deinit", "subscript"].contains keyword) then t.text else ""
        | none => "") position := by
    rw [otherWord, run_bind, run_nextIs, Nat.add_zero, bind_done]
    cases hg : tokens[position]? with
    | none =>
      rw [Option.any_none, Bool.and_false]
      rfl
    | some t =>
      rw [Option.any_some, Bool.and_comm, beq_eq_decide]
      simp only
      split
      · rw [run_bind, run_current hg]
        rfl
      · rfl
  have hreader : (Reader.otherName keyword).run (tokens.drop position) =
      (statement >>= fun _ => match (tokens.drop position).head? with
        | some t =>
          pure (if t.kind = .identifier && !(["init", "deinit", "subscript"].contains keyword) then t.text else "")
        | none => pure "").run (tokens.drop position) := rfl
  rw [otherName, run_bind, hword, bind_done, hreader, run_bind, run_bind_eq, List.head?_drop]
  refine (follows_skipStatement hs hp).bind fun _ _ after _ ha _ => ?_
  cases tokens[position]? with
  | none => exact .done rfl ha rfl
  | some t => exact .done rfl ha rfl

theorem takes_directive : Takes (·.kind == .hashWord) directive Reader.directive := by
  intro tokens position t hg ht
  have hk : t.kind = .hashWord := by simpa using ht
  obtain ⟨hlt, -⟩ := drop_of_getElem? hg
  rw [directive, run_bind, run_consumeKind hg hk, bind_done]
  have hfollows : Follows (if ["#elseif", "#else", "#endif"].contains t.text then
        raise (t.fault (.unexpectedDirective t.text))
      else ifNext (·.kind == .leftParen) skipGroup >>= fun _ => pure ()) (Reader.directive t) := by
    unfold Reader.directive
    split
    · exact follows_raise _
    · exact (follows_ifNext takes_parentheses).bind fun _ _ _ => follows_pure rfl
  exact hfollows (ne_nil_of_getElem? hg) hlt

end Cursor

end TestHooks.Swift
