import TestHooks.Console.Markup
import TestHooks.Diagnostic
import TestHooks.Text.Lines
import TestHooks.Text.Occurrence

/-!
# Log messages

Messages to the user, and the entries that show them. A message is markup; an entry is what is seen of it.
-/

namespace TestHooks.Log

open TestHooks.Text

inductive Level
  | info
  | success
  | warning
  | error
  deriving DecidableEq, Repr

def Level.name : Level → String
  | info => "INFO"
  | success => "SUCCESS"
  | warning => "WARNING"
  | error => "ERROR"

structure Message where
  level : Level
  markup : String
  deriving DecidableEq, Repr

namespace Message

def info (markup : String) : Message := ⟨.info, "ℹ\uFE0F  " ++ markup⟩

def success (markup : String) : Message := ⟨.success, "✅ " ++ markup⟩

def warning (markup : String) : Message := ⟨.warning, "⚠\uFE0F  " ++ markup⟩

def error (markup : String) : Message := ⟨.error, "❌ " ++ markup⟩

/-- The text in the style of a name. -/
def styled (style text : String) : String :=
  "[" ++ style ++ "]" ++ text ++ "[/" ++ style ++ "]"

end Message

/-- The level that diagnostics of a severity are logged at. -/
def Level.ofSeverity : Severity → Level
  | .error => error
  | .warning => warning
  | .note => info

/-- A diagnostic, after the path of the file that it is about. -/
def Message.diagnostic (path : Option String) (d : Diagnostic) : Message :=
  let place := match path with
    | some p => styled "path" (Markup.escape p) ++ ":"
    | none => ""
  ⟨.ofSeverity d.severity, place ++ styled d.severity.text (Markup.escape d.text)⟩

/-! ### Entries -/

/-- What is seen of a message. -/
structure Entry where
  level : Level
  text : String
  deriving DecidableEq, Repr

/-- The line with spaces up to the next multiple of eight columns in place of each tab. -/
def expandTabs (column : Nat) : List Char → List Char
  | [] => []
  | c :: cs =>
    if c = '\t' then
      let width := 8 - column % 8
      List.replicate width ' ' ++ expandTabs (column + width) cs
    else c :: expandTabs (column + 1) cs

/-- The lines of a shown text without blanks at their ends. -/
def trimmedLines (text : String) : List String :=
  (splitAt '\n' text.toList).map fun line => String.ofList (dropEndWhile isBlank (expandTabs 0 line))

/-- What is seen of markup that is printed by itself. -/
def printed? (markup : String) : Option String :=
  (Markup.render? markup).map fun text => unlines (trimmedLines text)

/-- The lines of a log entry. After the first, empty lines are left out. -/
def shownLines (text : String) : List String :=
  (trimmedLines text).take 1 ++ ((trimmedLines text).drop 1).filter (!·.isEmpty)

/-- True for a text that reports complaints about a value. -/
def reportsComplaints (text : String) : Bool :=
  occursIn "validation error".toList text.toList

/-- What is seen of a text. Of a report on complaints only the first line is seen. -/
def layout (text : String) : String :=
  let shown := unlines (shownLines text)
  if reportsComplaints shown then unlines ((lines shown).take 1) else shown

/-- The entry that shows a message. There is none if its markup cannot be shown. -/
def Message.seen? (m : Message) : Option Entry :=
  (Markup.render? m.markup).map fun text => ⟨m.level, layout text⟩

theorem seen?_info : (Message.info "two\nlines").seen? = some ⟨.info, "ℹ\uFE0F  two\nlines"⟩ := by
  decide +kernel

end TestHooks.Log
