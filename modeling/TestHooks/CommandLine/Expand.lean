import TestHooks.CommandLine.Outcome
import TestHooks.Declaration.Document
import TestHooks.Expansion.File

/-!
# The command that expands a file

Swift text is expanded as a whole; of a declaration in a document only the extension is made. If anything went
wrong nothing is written.
-/

namespace TestHooks.CommandLine

open TestHooks.Expansion TestHooks.Log

/-- What is made of an input. -/
structure Product where
  code : String
  diagnostics : List Diagnostic
  /-- The number of types that were expanded. -/
  expanded : Nat
  /-- Messages before those of the diagnostics. -/
  notices : List Message
  deriving DecidableEq, Repr

/-- The record of a declaration that stands in a document. -/
def documentRecord (settings : Settings) (d : Declaration) : Record :=
  runGenerator settings testable (markerNamed d testableName) d

/-- The extensions of a record with an empty line between each two, and a line break at the end. -/
def extensionText (record : Record) : String :=
  let code := Text.joinTexts "\n\n" record.extensions
  if code.isEmpty then "" else code ++ "\n"

def productOfDeclaration (settings : Settings) (d : Declaration) : Product :=
  let record := documentRecord settings d
  ⟨extensionText record, record.diagnostics, if record.success then 1 else 0, []⟩

def productOfSwift (settings : Settings) (path : FilePath) (text : String) : Product :=
  let expansion := expandFile .standard settings text
  let notices := if expansion.records.isEmpty && expansion.success then [nothingFound path] else []
  ⟨expansion.code, expansion.diagnostics, (expansion.records.filter Record.success).length, notices⟩

def invalidDeclaration (path : FilePath) (complaints : List Complaint) : Message :=
  .error ("Invalid declaration in " ++ path.text ++ ": " ++ Complaint.summary Document.title complaints)

/-- What is made of the text of a file, or a message on a document that holds no declaration. -/
def productOf (settings : Settings) (path : FilePath) (text : String) : Except Message Product :=
  if isDocument path then
    match Document.read text with
    | .ok d => .ok (productOfDeclaration settings d)
    | .error complaints => .error (invalidDeclaration path complaints)
  else .ok (productOfSwift settings path text)

def Product.hasErrors (p : Product) : Bool :=
  p.diagnostics.any (·.isError)

def expansionFailed (path : FilePath) : Message :=
  .error ("Expansion failed for " ++ path.text)

def expansionWritten (path out : FilePath) (count : Nat) : Message :=
  .success ("Expanded " ++ toString count ++ " type(s): " ++ Message.styled "path" path.text ++ " -> " ++
    Message.styled "path" out.text)

/-- Puts out a product without errors. -/
def Product.deliver (p : Product) (path : FilePath) (out : Option FilePath) : Outcome :=
  let log := p.notices ++ p.diagnostics.map (.diagnostic (some path.text))
  if p.hasErrors then .failed 1 (log ++ [expansionFailed path])
  else
    match out with
    | some file =>
      { exitCode := 0
        log := log ++ [expansionWritten path file p.expanded]
        written := some (file, p.code) }
    | none => { exitCode := 0, output := p.code, log }

/-- Expands a text under settings. -/
def expandWith (path : FilePath) (out : Option FilePath) (settings : Settings) (text : String) : Outcome :=
  match productOf settings path text with
  | .ok product => product.deliver path out
  | .error message => .failed 1 [message]

/-- Expands a file. The settings may be overridden, and strict mode may be asked for. -/
def expand (path : FilePath) (out : Option FilePath) (strict : Bool) (overrides : List (String × Value))
    (inputs : Inputs) : Except Settings.DocumentFault Outcome :=
  withInput path inputs overrides (if strict then some true else none) (expandWith path out)

end TestHooks.CommandLine
