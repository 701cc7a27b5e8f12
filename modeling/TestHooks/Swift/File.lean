import TestHooks.Swift.Header

/-!
# Files of declarations

Reads the declarations of a file. Members of types must be declarations; at the top of a file other statements are
skipped. What a declaration leaves is a suffix of what follows its first token, so reading always ends.
-/

namespace TestHooks.Swift

open TestHooks.Reader Reader

/-! ### Declarations without members -/

/-- The words that decide what a declaration is. -/
inductive Introducer
  | type (keyword : TypeKeyword)
  | variableList (keyword : VariableKeyword)
  | function
  | other (keyword : String)
  deriving DecidableEq, Repr

def Introducer.ofToken? (t : Token) : Option Introducer :=
  if t.kind != .identifier then none
  else
    match TypeKeyword.all.find? (·.text == t.text), VariableKeyword.all.find? (·.text == t.text) with
    | some keyword, _ => some (type keyword)
    | none, some keyword => some (variableList keyword)
    | none, none =>
      if t.text = "func" then some function else if otherKeywords.contains t.text then some (other t.text) else none

/-- The attributes and modifiers of a declaration whose first token is `t`. -/
def headFrom (t : Token) : Reader Head := do
  let attributes ← attributes
  let modifiers ← modifiers
  pure { attributes, modifiers, position := t.position }

/-- Drops the rest of a statement after its first token. -/
def statementFrom (t : Token) : Reader Unit where
  run ts := .ok ((), afterStatement (statementDepth 0 t) false ts)
  suffix h := by
    cases h
    exact afterStatement_suffix _ _ _

/-- A statement, of which nothing is kept. It is a fault where a declaration must stand. -/
def statementOrFault (strict : Bool) (head : Head) (t : Token) : Reader (Option Decl) := do
  if strict || !head.attributes.isEmpty || !head.modifiers.isEmpty then
    fail (t.fault (.expectedDeclaration t.text))
  else
    statementFrom t
    pure none

/-- A declaration that holds no others, after its head and its keyword `t`. -/
def flatDeclaration (strict : Bool) (head : Head) (t : Token) : Option Introducer → Reader (Option Decl)
  | some (.variableList keyword) => do pure (some (.variableList head keyword (← byCommas binding)))
  | some .function => do pure (some (.function head (← function)))
  | some (.other keyword) => do pure (some (.other head keyword (← otherName keyword)))
  | some (.type _) | none => statementOrFault strict head t

/-! ### Conditional blocks -/

/-- What a directive does inside a conditional block. -/
inductive ClauseMark
  | next (keyword : ClauseKeyword)
  | finish
  deriving DecidableEq, Repr

def clauseMark? (t : Token) : Option ClauseMark :=
  if t.kind != .hashWord then none
  else if t.text = "#elseif" then some (.next .elseifClause)
  else if t.text = "#else" then some (.next .elseClause)
  else if t.text = "#endif" then some .finish
  else none

/-- The condition of a clause; only `#else` has none. -/
def clauseCondition (keyword : ClauseKeyword) (directive : Token) : Reader String :=
  if keyword = .elseClause then pure "" else condition directive

/-! ### Declarations with members -/

/-- A result that leaves a suffix of `ts`. -/
abbrev Leaving (α : Type) (ts : List Token) :=
  Except Fault { p : α × List Token // p.2 <:+ ts }

/-- A result that leaves a shorter suffix of `ts`. -/
abbrev LeavingLess (α : Type) (ts : List Token) :=
  Except Fault { p : α × List Token // p.2 <:+ ts ∧ p.2.length < ts.length }

theorem suffix_of_cons_suffix_cons {k t : Token} {rest ts : List Token} (h : k :: rest <:+ t :: ts) :
    rest <:+ ts := by
  rcases List.suffix_cons_iff.1 h with h | h
  · cases h
    exact List.suffix_refl _
  · exact (List.suffix_cons _ _).trans h

mutual

/-- A declaration that begins with `t`, before `ts`. A statement gives nothing. -/
def declaration (strict : Bool) (t : Token) (ts : List Token) : Leaving (Option Decl) ts :=
  if t.kind = .hashWord then
    if t.text = "#if" then
      match clauses strict t t .ifClause ts with
      | .ok ⟨(found, rest), h⟩ => .ok ⟨(some (.conditional t.position found), rest), h⟩
      | .error fault => .error fault
    else
      match h : (directive t).run ts with
      | .ok (_, rest) => .ok ⟨(some (.other ⟨[], [], t.position⟩ t.text ""), rest), (directive t).suffix h⟩
      | .error fault => .error fault
  else
    match hh : (headFrom t).run (t :: ts) with
    | .error fault => .error fault
    | .ok (_, []) => .error (t.fault .onlyAttributes)
    | .ok (head, k :: rest) =>
      have hr : rest <:+ ts := suffix_of_cons_suffix_cons ((headFrom t).suffix hh)
      match Introducer.ofToken? k with
      | some (.type keyword) =>
        match ht : (typeHeader keyword).run rest with
        | .error fault => .error fault
        | .ok (header, inside) =>
          match members inside with
          | .ok ⟨(found, left), hm⟩ =>
            .ok ⟨(some (.group head header found), left), (hm.trans ((typeHeader keyword).suffix ht)).trans hr⟩
          | .error fault => .error fault
      | introducer =>
        match hf : (flatDeclaration strict head k introducer).run rest with
        | .ok (found, left) => .ok ⟨(found, left), ((flatDeclaration strict head k introducer).suffix hf).trans hr⟩
        | .error fault => .error fault
termination_by 3 * ts.length + 2
decreasing_by
  · omega
  · have := strict_typeHeader keyword ht
    have := hr.length_le
    omega

/-- The members of a type after the opening brace, through the closing one. -/
def members (ts : List Token) : Leaving (List Decl) ts :=
  match ts with
  | [] => .error ⟨.unexpectedEndOfBlock, .unknown⟩
  | t :: rest =>
    if t.kind = .rightBrace then .ok ⟨([], rest), List.suffix_cons _ _⟩
    else if t.kind = .semicolon then
      match members rest with
      | .ok ⟨p, h⟩ => .ok ⟨p, h.trans (List.suffix_cons _ _)⟩
      | .error fault => .error fault
    else
      match declaration true t rest with
      | .error fault => .error fault
      | .ok ⟨(found, after), h⟩ =>
        match members after with
        | .ok ⟨(others, left), h'⟩ => .ok ⟨(found.toList ++ others, left), (h'.trans h).trans (List.suffix_cons _ _)⟩
        | .error fault => .error fault
termination_by 3 * ts.length
decreasing_by
  · simp only [List.length_cons]
    omega
  · simp only [List.length_cons]
    omega
  · have : after.length ≤ rest.length := h.length_le
    simp only [List.length_cons]
    omega

/-- The clauses of a conditional block that begins with `start`, from the condition after `mark` on. -/
def clauses (strict : Bool) (start mark : Token) (keyword : ClauseKeyword) (ts : List Token) :
    Leaving (List Clause) ts :=
  match hc : (clauseCondition keyword mark).run ts with
  | .error fault => .error fault
  | .ok (condition, inside) =>
    have hi : inside <:+ ts := (clauseCondition keyword mark).suffix hc
    match clauseMembers strict start inside with
    | .error fault => .error fault
    | .ok ⟨((found, _, .finish), left), h⟩ => .ok ⟨([.mk keyword condition found], left), h.1.trans hi⟩
    | .ok ⟨((found, t, .next keyword'), left), h⟩ =>
      match clauses strict start t keyword' left with
      | .ok ⟨(others, left'), h'⟩ => .ok ⟨(.mk keyword condition found :: others, left'), (h'.trans h.1).trans hi⟩
      | .error fault => .error fault
termination_by 3 * ts.length + 1
decreasing_by
  · have := hi.length_le
    omega
  · have := hi.length_le
    have := h.2
    dsimp only at this
    omega

/-- The members of a clause, with the directive that ends it. -/
def clauseMembers (strict : Bool) (start : Token) (ts : List Token) :
    LeavingLess (List Decl × Token × ClauseMark) ts :=
  match ts with
  | [] => .error (start.fault .unterminatedCondition)
  | t :: rest =>
    match clauseMark? t with
    | some mark => .ok ⟨(([], t, mark), rest), List.suffix_cons _ _, Nat.lt_succ_self _⟩
    | none =>
      if t.kind = .semicolon then
        match clauseMembers strict start rest with
        | .ok ⟨p, h⟩ => .ok ⟨p, h.1.trans (List.suffix_cons _ _), Nat.lt_succ_of_lt h.2⟩
        | .error fault => .error fault
      else if t.kind = .rightBrace then .error (start.fault .unterminatedCondition)
      else
        match declaration strict t rest with
        | .error fault => .error fault
        | .ok ⟨(found, after), h⟩ =>
          match clauseMembers strict start after with
          | .ok ⟨((others, mark), left), h'⟩ =>
            .ok ⟨((found.toList ++ others, mark), left), (h'.1.trans h).trans (List.suffix_cons _ _),
              Nat.lt_succ_of_lt (Nat.lt_of_lt_of_le h'.2 h.length_le)⟩
          | .error fault => .error fault
termination_by 3 * ts.length
decreasing_by
  · simp only [List.length_cons]
    omega
  · simp only [List.length_cons]
    omega
  · have : after.length ≤ rest.length := h.length_le
    simp only [List.length_cons]
    omega

end

/-! ### Files -/

/-- The declarations at the top of a file. -/
def topLevel (ts : List Token) : Except Fault (List Decl) :=
  match ts with
  | [] => .ok []
  | t :: rest =>
    if t.kind = .semicolon then topLevel rest
    else if t.kind = .rightBrace then .error (t.fault .unbalancedBrace)
    else
      match declaration false t rest with
      | .error fault => .error fault
      | .ok ⟨(found, left), _h⟩ => (topLevel left).map (found.toList ++ ·)
termination_by ts.length
decreasing_by
  · simp only [List.length_cons]
    omega
  · have : left.length ≤ rest.length := _h.length_le
    simp only [List.length_cons]
    omega

/-- The declarations of a Swift file. -/
def parse (text : String) : Except SyntaxError (List Decl) :=
  let read := Tokens.ofText text
  match read.failure with
  | some e => .error e
  | none => (topLevel read.tokens).mapError (Fault.toError read.tokens.getLast?)

end TestHooks.Swift
