import TestHooks.Text.Blank
import TestHooks.Text.Integer
import TestHooks.Value

/-!
# Validation of values

A check turns a value into what it stands for, or lists everything that is wrong with it, each complaint with the
path to the place. Checks of several fields report the complaints of all of them, in the order of the fields.
-/

namespace TestHooks

/-- Where values come from. It decides what lists and tables are called. -/
inductive Form
  | text
  | values
  deriving DecidableEq, Repr

inductive PathStep
  | field (name : String)
  | item (index : Nat)
  deriving DecidableEq, Repr

/-- What is wrong with a value. -/
inductive Issue
  | malformed
  | missing
  | notString
  | notBool
  | unclearBool
  | notInt
  | unclearInt
  | fractionalInt
  | infiniteInt
  | oversizedInt
  | notList (form : Form)
  | notTable (form : Form) (title : String)
  | notMember (form : Form)
  | noTag
  | unknownTag (tag : String)
  | notOneOf (choices : String)
  | rejected (reason : String)
  deriving DecidableEq, Repr

/-- The name of the kind of issue. -/
def Issue.name : Issue → String
  | malformed => "json_invalid"
  | missing => "missing"
  | notString => "string_type"
  | notBool => "bool_type"
  | unclearBool => "bool_parsing"
  | notInt => "int_type"
  | unclearInt => "int_parsing"
  | fractionalInt => "int_from_float"
  | infiniteInt => "finite_number"
  | oversizedInt => "int_parsing_size"
  | notList _ => "list_type"
  | notTable _ _ => "model_type"
  | notMember .text => "dict_type"
  | notMember .values => "model_attributes_type"
  | noTag => "union_tag_not_found"
  | unknownTag _ => "union_tag_invalid"
  | notOneOf _ => "literal_error"
  | rejected _ => "value_error"

/-- The wording of an issue; there is none for malformed text. -/
def Issue.message? : Issue → Option String
  | malformed => none
  | missing => some "Field required"
  | notString => some "Input should be a valid string"
  | notBool => some "Input should be a valid boolean"
  | unclearBool => some "Input should be a valid boolean, unable to interpret input"
  | notInt => some "Input should be a valid integer"
  | unclearInt => some "Input should be a valid integer, unable to parse string as an integer"
  | fractionalInt => some "Input should be a valid integer, got a number with a fractional part"
  | infiniteInt => some "Input should be a finite number"
  | oversizedInt => some "Unable to parse input string as an integer, exceeded maximum size"
  | notList .text => some "Input should be a valid array"
  | notList .values => some "Input should be a valid list"
  | notTable .text _ => some "Input should be an object"
  | notTable .values title => some ("Input should be a valid dictionary or instance of " ++ title)
  | notMember .text => some "Input should be an object"
  | notMember .values => some "Input should be a valid dictionary or object to extract fields from"
  | noTag => some "Unable to extract tag using discriminator 'kind'"
  | unknownTag tag =>
    some ("Input tag '" ++ tag ++ "' found using 'kind' does not match any of the expected tags: " ++
      "'property', 'function', 'unsupported'")
  | notOneOf choices => some ("Input should be " ++ choices)
  | rejected reason => some ("Value error, " ++ reason)

structure Complaint where
  issue : Issue
  path : List PathStep
  deriving DecidableEq, Repr

/-- One line that says how many complaints there are about what. -/
def Complaint.summary (title : String) (complaints : List Complaint) : String :=
  let noun := if complaints.length = 1 then " validation error for " else " validation errors for "
  toString complaints.length ++ noun ++ title

/-- A checked value, or the complaints about it. -/
def Checked (α : Type) := Except (List Complaint) α

namespace Checked

variable {α β : Type}

def ok (x : α) : Checked α := Except.ok x

def fail (issue : Issue) : Checked α := Except.error [⟨issue, []⟩]

def map (f : α → β) : Checked α → Checked β
  | .ok x => .ok (f x)
  | .error complaints => .error complaints

/-- Both checks, with the complaints of both. -/
def both : Checked (α → β) → Checked α → Checked β
  | .ok f, .ok x => .ok (f x)
  | .ok _, .error complaints => .error complaints
  | .error complaints, .ok _ => .error complaints
  | .error first, .error second => .error (first ++ second)

instance : Applicative Checked where
  pure := ok
  seq f x := both f (x ())

/-- A check that follows another. -/
def next (x : Checked α) (f : α → Checked β) : Checked β :=
  match x with
  | .ok y => f y
  | .error complaints => .error complaints

/-- The check of a part at a step of the path. -/
def under (step : PathStep) : Checked α → Checked α
  | .ok x => .ok x
  | .error complaints => .error (complaints.map fun c => { c with path := step :: c.path })

/-- All checks of a list of parts, the first of which has the index `start`. -/
def itemsFrom (start : Nat) (check : Value → Checked α) : List Value → Checked (List α)
  | [] => ok []
  | v :: vs => both (map List.cons ((check v).under (.item start))) (itemsFrom (start + 1) check vs)

/-- The check of a field of a table, with the value that stands for an absent one. -/
def optionalField (entries : List (String × Value)) (name : String) (check : Value → Checked α) (absent : α) :
    Checked α :=
  match Value.lookup name entries with
  | some v => (check v).under (.field name)
  | none => ok absent

/-- The check of a field that must not be absent. -/
def requiredField (entries : List (String × Value)) (name : String) (check : Value → Checked α) : Checked α :=
  match Value.lookup name entries with
  | some v => (check v).under (.field name)
  | none => (fail .missing).under (.field name)

end Checked

/-! ### Simple values -/

namespace Value

def checkString : Value → Checked String
  | string s => .ok s
  | _ => .fail .notString

def checkOptionalString : Value → Checked (Option String)
  | null => .ok none
  | v => (checkString v).map some

def falseWords : List String := ["0", "off", "f", "false", "n", "no"]

def trueWords : List String := ["1", "on", "t", "true", "y", "yes"]

/-- The text with its ASCII letters in lower case. -/
def lowerAscii (s : String) : String := String.ofList (s.toList.map Char.toLower)

def checkTruth (n : Int) : Checked Bool :=
  if n = 0 then .ok false else if n = 1 then .ok true else .fail .unclearBool

/-- True for numbers that fit a signed word of 64 bits. -/
def fitsWord (n : Int) : Bool :=
  Int64.minValue.toInt ≤ n && n ≤ Int64.maxValue.toInt

def checkBool : Value → Checked Bool
  | bool b => .ok b
  | int n => if fitsWord n then checkTruth n else .fail .notBool
  | float x =>
    match x.toInt? with
    | some n => if fitsWord n then checkTruth n else .fail .notBool
    | none => .fail .notBool
  | string s =>
    if falseWords.contains (lowerAscii s) then .ok false
    else if trueWords.contains (lowerAscii s) then .ok true
    else .fail .unclearBool
  | _ => .fail .notBool

/-- White space around a number in a text. The information separators are not among it. -/
def isNumberBlank (c : Char) : Bool :=
  Text.isBlank c && !(28 ≤ c.toNat && c.toNat ≤ 31)

/-- Longer texts are not read as numbers. -/
def maxNumberLength : Nat := 4300

/-- A whole number as text, blanks around it aside. A point and zeros may follow. -/
def checkIntText (s : String) : Checked Int :=
  let trimmed := Text.trimWhile isNumberBlank s.toList
  let whole := trimmed.takeWhile (· != '.')
  let fraction := trimmed.drop whole.length
  if maxNumberLength < (String.ofList trimmed).utf8ByteSize then .fail .oversizedInt
  else if fraction.isEmpty || (1 < fraction.length && (fraction.drop 1).all (· == '0')) then
    match Text.signedDigits? Text.asciiDigit? whole with
    | some n => .ok n
    | none => .fail .unclearInt
  else .fail .unclearInt

def checkInt : Value → Checked Int
  | int n => .ok n
  | bool b => .ok (if b then 1 else 0)
  | float x =>
    if !x.isFinite then .fail .infiniteInt
    else
      match x.toInt? with
      | some n => if fitsWord n then .ok n else .fail .oversizedInt
      | none => .fail .fractionalInt
  | string s => checkIntText s
  | _ => .fail .notInt

def checkList {α : Type} (form : Form) (check : Value → Checked α) : Value → Checked (List α)
  | list items => Checked.itemsFrom 0 check items
  | _ => .fail (.notList form)

end Value

end TestHooks
