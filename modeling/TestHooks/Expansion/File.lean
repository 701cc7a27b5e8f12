import TestHooks.Declaration.OfTree
import TestHooks.Expansion.Annotated
import TestHooks.Expansion.Removal
import TestHooks.Expansion.Testable
import TestHooks.Swift.File
import TestHooks.Text.Lines

/-!
# Expansion of files

Runs the generator of every registered attribute on its type. The attributes are removed from the text, and the
extensions are put behind it, each after an empty line. A generator that fails does not stop the others.
-/

namespace TestHooks.Expansion

open TestHooks.Text

/-- What came of one attribute. -/
structure Record where
  generator : String
  typeName : String
  line : Option Nat
  success : Bool
  extensions : List String
  diagnostics : List Diagnostic
  deriving DecidableEq, Repr

/-- The record of an outcome. The diagnostic of a failure is listed once. -/
def Record.ofOutcome (marker : Marker) (d : Declaration) (outcome : Outcome) : Record :=
  let line := marker.position.map Position.line
  match outcome.result with
  | .ok extensions => ⟨marker.name, d.name, line, true, extensions, outcome.diagnostics⟩
  | .error fault =>
    let listed := if outcome.diagnostics.contains fault then outcome.diagnostics else outcome.diagnostics ++ [fault]
    ⟨marker.name, d.name, line, false, [], listed⟩

def runGenerator (settings : Settings) (g : Generator) (marker : Marker) (d : Declaration) : Record :=
  .ofOutcome marker d (g marker d d.name settings)

/-! ### Declarations -/

/-- The attribute of a declaration that has a name, or one at the place of the declaration. -/
def markerNamed (d : Declaration) (name : String) : Marker :=
  (d.attributes.find? (·.name == name)).getD ⟨name, d.position⟩

/-- The record of a declaration that is given without text. There is none if nothing is registered under the
name. -/
def expandDeclaration? (registry : Registry) (settings : Settings) (d : Declaration) (name : String := testableName) :
    Option Record :=
  (registry.lookup name).map fun g => runGenerator settings g (markerNamed d name) d

/-- The message on a name under which nothing is registered. -/
def unregisteredMessage (name : String) : String :=
  "No macro registered for @" ++ name

/-! ### Files -/

structure FileExpansion where
  code : String
  records : List Record
  diagnostics : List Diagnostic
  deriving DecidableEq, Repr

namespace FileExpansion

def errors (e : FileExpansion) : List Diagnostic := e.diagnostics.filter (·.isError)

def warnings (e : FileExpansion) : List Diagnostic := e.diagnostics.filter (·.isWarning)

def success (e : FileExpansion) : Bool := e.errors.isEmpty

end FileExpansion

/-- The declaration of an annotated type. -/
def AnnotatedType.declaration (a : AnnotatedType) : Declaration :=
  .ofType a.head a.header a.members (some a.name)

def AnnotatedType.marker (a : AnnotatedType) : Marker :=
  ⟨a.mark.name, some a.mark.start.toPosition⟩

def AnnotatedType.span (a : AnnotatedType) : Span :=
  ⟨a.mark.start.offset, a.mark.stop⟩

def runAnnotated (registry : Registry) (settings : Settings) (a : AnnotatedType) : Option Record :=
  (registry.lookup a.mark.name).map fun g => runGenerator settings g a.marker a.declaration

/-- The text without the spans and with the extensions behind it. The text ends in a line break if it did so
before. -/
def layout (code : List Char) (spans : List Span) (extensions : List String) : List Char :=
  dropEndWhile (· == '\n') (removeSpans code spans) ++ extensions.flatMap (fun e => '\n' :: '\n' :: e.toList) ++
    (if code.getLast? = some '\n' then ['\n'] else [])

def expandFile (registry : Registry) (settings : Settings) (code : String) : FileExpansion :=
  match Swift.parse code with
  | .error e => ⟨"", [], [⟨.error, e.cause.message, e.position⟩]⟩
  | .ok decls =>
    let found := annotatedAmong registry.isRegistered none decls
    let records := found.filterMap (runAnnotated registry settings)
    let diagnostics := records.flatMap Record.diagnostics
    if found.isEmpty then ⟨code, records, diagnostics⟩
    else
      let text := layout code.toList (found.map AnnotatedType.span) (records.flatMap Record.extensions)
      ⟨String.ofList text, records, diagnostics⟩

/-- The expanded text, or a message that lists the errors. -/
def expandText (settings : Settings) (code : String) : Except String String :=
  let expansion := expandFile .standard settings code
  if expansion.success then .ok expansion.code
  else .error ("Expansion failed:\n" ++ unlines (expansion.errors.map Diagnostic.text))

end TestHooks.Expansion
