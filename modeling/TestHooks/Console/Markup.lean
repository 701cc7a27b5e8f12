import TestHooks.Text.Blank

/-!
# Markup

Messages may hold tags in square brackets, which choose a style and are not shown. A tag after an odd number of
backslashes is shown as written. `escape` makes markup of a text that is to be shown, and `render?` shows markup.
-/

namespace TestHooks.Markup

open TestHooks.Text

/-- A character, or a tag after some backslashes. -/
inductive Fragment
  | plain (c : Char)
  | tag (slashes : Nat) (body : List Char)
  deriving DecidableEq, Repr

/-- The text of a fragment. -/
def Fragment.source : Fragment → List Char
  | plain c => [c]
  | tag slashes body => List.replicate slashes '\\' ++ '[' :: body ++ [']']

/-- Characters that may come after the bracket of a tag. -/
def beginsTag (c : Char) : Bool :=
  ('a' ≤ c && c ≤ 'z') || c == '#' || c == '/' || c == '@'

/-- The body of a tag after its opening bracket. -/
def tagBody? : List Char → Option (List Char)
  | [] => none
  | c :: cs =>
    let body := cs.takeWhile fun d => d != ']' && d != '['
    if beginsTag c && (cs.drop body.length).head? == some ']' then some (c :: body) else none

/-- The tag at the head of a text, with the number of backslashes before it. -/
def tag? (cs : List Char) : Option (Nat × List Char) :=
  let slashes := (cs.takeWhile (· == '\\')).length
  match cs.drop slashes with
  | '[' :: rest => (tagBody? rest).map fun body => (slashes, body)
  | _ => none

def fragments : List Char → List Fragment
  | [] => []
  | c :: cs =>
    match tag? (c :: cs) with
    | some (slashes, body) => .tag slashes body :: fragments (cs.drop (slashes + body.length + 1))
    | none => .plain c :: fragments cs
termination_by cs => cs.length
decreasing_by
  all_goals
    simp only [List.length_cons, List.length_drop]
    omega

/-! ### Escaping -/

/-- The fragment with its tag to be shown, and the backslashes before it too. -/
def Fragment.escaped : Fragment → List Char
  | plain c => [c]
  | tag slashes body => Fragment.source (tag (2 * slashes + 1) body)

/-- True for a text that ends in exactly one backslash. -/
def endsInOneSlash (cs : List Char) : Bool :=
  (cs.reverse.takeWhile (· == '\\')).length == 1

/-- Markup that is shown as the text. One backslash at the end is doubled, so that it does not escape what may
follow. -/
def escape (s : String) : String :=
  let marked := (fragments s.toList).flatMap Fragment.escaped
  String.ofList (if endsInOneSlash marked then marked ++ ['\\'] else marked)

/-! ### Showing -/

/-- Styles with a short name. -/
def shortNames : List (String × String) :=
  [("b", "bold"), ("d", "dim"), ("i", "italic"), ("u", "underline"), ("uu", "underline2"), ("r", "reverse"),
    ("c", "conceal"), ("s", "strike"), ("o", "overline")]

/-- The name that a tag gives to its style. -/
def styleName (body : List Char) : List Char :=
  let name := (trimWhile isBlank (body.takeWhile (· != '='))).map Char.toLower
  match shortNames.find? (·.1.toList == name) with
  | some (_, long) => long.toList
  | none => name

/-- The open styles after a tag, the last one first. A closing tag closes the last style of its name, or the last
style if it has no name. There must be one. -/
def applyTag (styles : List (List Char)) : List Char → Option (List (List Char))
  | '/' :: body =>
    let name := styleName body
    if name.isEmpty then styles.tail? else if styles.contains name then some (styles.erase name) else none
  | body => some (styleName body :: styles)

/-- The characters that fragments show. A backslash before a bracket is left out. -/
def showFrom? (styles : List (List Char)) : List Fragment → Option (List Char)
  | [] => some []
  | .plain '\\' :: .plain '[' :: rest => (showFrom? styles rest).map ('[' :: ·)
  | .plain c :: rest => (showFrom? styles rest).map (c :: ·)
  | .tag slashes body :: rest =>
    let slashed := List.replicate (slashes / 2) '\\'
    if slashes % 2 = 1 then (showFrom? styles rest).map ((slashed ++ '[' :: body ++ [']']) ++ ·)
    else
      match applyTag styles body with
      | some styles' => (showFrom? styles' rest).map (slashed ++ ·)
      | none => none

/-- Characters that terminals act on: bell, backspace, vertical tab, form feed and carriage return. -/
def isTerminalControl (c : Char) : Bool :=
  ['\x07', '\x08', '\x0b', '\x0c', '\r'].contains c

/-- What is shown of markup. There is nothing if a tag closes a style that is not open. -/
def render? (markup : String) : Option String :=
  (showFrom? [] (fragments markup.toList)).map fun shown =>
    String.ofList (shown.filter fun c => !isTerminalControl c)

theorem render?_tags : render? "[bold]a[/bold] [B] \\[b]" = some "a [B] [b]" := by decide +kernel

theorem render?_escape_tag : render? (escape "x [b]y\\[/b] z") = some "x [b]y\\[/b] z" := by decide +kernel

end TestHooks.Markup
