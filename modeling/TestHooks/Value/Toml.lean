import TestHooks.Reader
import TestHooks.Value.Toml.Scalar
import TestHooks.Value.Toml.Table

/-!
# TOML documents

Reads a TOML document into the entries of its outermost table.
-/

namespace TestHooks.Toml

open TestHooks.Reader

/-- A reader of characters. What is wrong does not matter. -/
abbrev CharReader := TestHooks.Reader Char Unit

def char (c : Char) : CharReader Unit :=
  measured () fun cs => if cs.head? = some c then some ((), 1) else none

def blanks : CharReader Unit := skipWhile isBlank

/-- The text of a comment. -/
def commentText : CharReader Unit :=
  measured () fun cs =>
    let found := cs.takeWhile (· != '\n')
    if found.any isControl then none else some ((), found.length)

/-- Blanks, line breaks and comments inside a list. -/
def trivia : CharReader Unit := do
  skipWhile isBlankOrNewline
  let _ ← whileNext (· == '#') fun _ => do
    commentText
    skipWhile isBlankOrNewline
  pure ()

/-- A key: parts with dots between them, and blanks around these. -/
def key : CharReader Path := do
  let first ← measured () keyPart?
  blanks
  let others ← whileNext (· == '.') fun _ => do
    blanks
    let part ← measured () keyPart?
    blanks
    pure part
  pure (first :: others)

/-- A key and the equals sign after it. -/
def keyOfPair : CharReader Path := do
  let found ← key
  char '='
  blanks
  pure found

/-! ### Values -/

/-- A result that leaves a shorter suffix of `cs`. -/
abbrev Found (α : Type) (cs : List Char) :=
  Option { p : α × List Char // p.2 <:+ cs ∧ p.2.length < cs.length }

theorem suffix_of_suffix_tail {c : Char} {rest cs : List Char} (h : rest <:+ cs) :
    rest <:+ c :: cs ∧ rest.length < (c :: cs).length :=
  ⟨h.trans (List.suffix_cons _ _), Nat.lt_succ_of_le h.length_le⟩

/-- The result of what follows a first part. -/
def Found.after {α β : Type} {cs rest : List Char} (h : rest <:+ cs) (f : α → Option β) :
    Found α rest → Found β cs
  | none => none
  | some ⟨(x, left), hl⟩ =>
    (f x).map fun y => ⟨(y, left), hl.1.trans h, Nat.lt_of_lt_of_le hl.2 h.length_le⟩

mutual

def value (cs : List Char) : Found Value cs :=
  match cs with
  | [] => none
  | '[' :: rest => (items rest).after (List.suffix_cons _ _) fun vs => some (.list vs)
  | '\x7b' :: rest =>
    match h : blanks.run rest with
    | .error _ => none
    | .ok (_, '\x7d' :: left) =>
      some ⟨(.table [], left), suffix_of_suffix_tail ((List.suffix_cons _ _).trans (blanks.suffix h))⟩
    | .ok (_, inside) => (pairs inside).after ((blanks.suffix h).trans (List.suffix_cons _ _)) inlineTable?
  | c :: rest =>
    match scalar? (c :: rest) with
    | none => none
    | some (v, n) => some ⟨(v, rest.drop (n - 1)), suffix_of_suffix_tail (List.drop_suffix _ _)⟩
termination_by 2 * cs.length
decreasing_by
  · simp only [List.length_cons]
    omega
  · have := blanks.length_le h
    simp only [List.length_cons]
    omega

/-- The rest of a list, after its opening bracket or a comma. -/
def items (cs : List Char) : Found (List Value) cs :=
  match h : trivia.run cs with
  | .error _ => none
  | .ok (_, ']' :: left) =>
    have hs := trivia.suffix h
    some ⟨([], left), (List.suffix_cons _ _).trans hs, Nat.lt_of_lt_of_le (Nat.lt_succ_self _) hs.length_le⟩
  | .ok (_, inside) =>
    have hi := trivia.suffix h
    match value inside with
    | none => none
    | some ⟨(v, after), hv⟩ =>
      match ht : trivia.run after with
      | .ok (_, ']' :: left) =>
        have hs := ((trivia.suffix ht).trans hv.1).trans hi
        some ⟨([v], left), (List.suffix_cons _ _).trans hs, Nat.lt_of_lt_of_le (Nat.lt_succ_self _) hs.length_le⟩
      | .ok (_, ',' :: left) =>
        have hs := ((trivia.suffix ht).trans hv.1).trans hi
        (items left).after ((List.suffix_cons _ _).trans hs) fun vs => some (v :: vs)
      | _ => none
termination_by 2 * cs.length + 1
decreasing_by
  · have := hi.length_le
    omega
  · have := hs.length_le
    simp at this
    omega

/-- The rest of an inline table, from a key on. -/
def pairs (cs : List Char) : Found (List (Path × Value)) cs :=
  match hk : keyOfPair.run cs with
  | .error _ => none
  | .ok (path, inside) =>
    have hi := keyOfPair.suffix hk
    match value inside with
    | none => none
    | some ⟨(v, after), hv⟩ =>
      match hb : blanks.run after with
      | .ok (_, '\x7d' :: left) =>
        have hs := ((blanks.suffix hb).trans hv.1).trans hi
        some ⟨([(path, v)], left), (List.suffix_cons _ _).trans hs, Nat.lt_of_lt_of_le (Nat.lt_succ_self _) hs.length_le⟩
      | .ok (_, ',' :: left) =>
        have hs := ((blanks.suffix hb).trans hv.1).trans hi
        match hn : blanks.run left with
        | .error _ => none
        | .ok (_, next) =>
          have hr := (((blanks.suffix hn).trans (List.suffix_cons _ _)).trans hs)
          (pairs next).after hr fun found => some ((path, v) :: found)
      | _ => none
termination_by 2 * cs.length + 1
decreasing_by
  · have := hi.length_le
    omega
  · have := hs.length_le
    have := (blanks.suffix hn).length_le
    simp at *
    omega

end

def valueReader : CharReader Value where
  run cs :=
    match value cs with
    | some ⟨p, _⟩ => .ok p
    | none => .error ()
  suffix {cs x rest} h := by
    split at h
    · next p hp _ =>
      cases h
      exact hp.1
    · simp at h

/-! ### Statements -/

def pair : CharReader Statement := do
  let path ← keyOfPair
  let v ← valueReader
  pure (.pair path v)

/-- The header of a table or of a table in a list. -/
def header : CharReader Statement := do
  char '['
  let isList ← optionally (· == '[') fun _ => pure ()
  blanks
  let path ← key
  char ']'
  match isList with
  | some _ =>
    char ']'
    pure (.listHeader path)
  | none => pure (.header path)

/-- One line, which may be empty. -/
def line : CharReader (Option Statement) := do
  blanks
  let next ← look List.head?
  let found ← match next with
    | none => pure none
    | some c =>
      if c = '\n' || c = '#' then pure none
      else if c = '[' then some <$> header
      else some <$> pair
  blanks
  let _ ← optionally (· == '#') fun _ => commentText
  pure found

def statements : CharReader (List Statement) := do
  let first ← line
  let others ← whileNext (· == '\n') fun _ => line
  pure ((first :: others).filterMap id)

/-- The text with line feeds for pairs of carriage return and line feed. -/
def unifyLineBreaks : List Char → List Char
  | '\r' :: '\n' :: cs => '\n' :: unifyLineBreaks cs
  | c :: cs => c :: unifyLineBreaks cs
  | [] => []

/-- The entries of a document. -/
def read? (text : String) : Option Entries :=
  match statements.run (unifyLineBreaks text.toList) with
  | .ok (found, []) => (Draft.empty.addAll found).map Draft.entries
  | _ => none

end TestHooks.Toml
