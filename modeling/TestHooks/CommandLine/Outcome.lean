import TestHooks.Console.Log
import TestHooks.Settings.Document
import TestHooks.Workspace

/-!
# Outcomes of commands

What a command reads and what comes of it, as values: nothing is read or written here.
-/

namespace TestHooks.CommandLine

open TestHooks.Log

/-- What a command reads: its input, if that is a file, and the nearest file of settings. -/
structure Inputs where
  text : Option String
  settings : Option String
  deriving DecidableEq, Repr

/-- What a command on a file of a workspace reads. -/
def inputsIn (w : Workspace) (path : FilePath) : Inputs :=
  match w.fileAt? path with
  | some route => ⟨w.textAt? route, w.nearest? Settings.fileName route.dropLast⟩
  | none => ⟨none, none⟩

/-- A row about one member. -/
structure Row where
  member : String
  kind : String
  modifiers : String
  forwardedAs : String
  reason : String
  deriving DecidableEq, Repr

def Row.cells (r : Row) : List String :=
  [r.member, r.kind, r.modifiers, r.forwardedAs, r.reason]

structure Table where
  title : String
  rows : List Row
  deriving DecidableEq, Repr

def Table.columns : List String :=
  ["Member", "Kind", "Modifiers", "Forwarded As", "Reason"]

structure Outcome where
  exitCode : Nat
  output : String := ""
  log : List Message := []
  tables : List Table := []
  /-- The file to write, and its text. -/
  written : Option (FilePath × String) := none
  deriving DecidableEq, Repr

/-- The outcome of a command that stops with messages. -/
def Outcome.failed (exitCode : Nat) (log : List Message) : Outcome :=
  { exitCode, log }

/-! ### Common beginnings -/

def inputNotFound (path : FilePath) : Message :=
  .error ("Input not found: " ++ path.text)

def invalidSettings (complaints : List Complaint) : Message :=
  .error ("Invalid configuration: " ++ Complaint.summary Settings.title complaints)

def nothingFound (path : FilePath) : Message :=
  .info ("No annotated types found in " ++ Message.styled "path" path.text)

/-- True for files that hold a declaration as a document. -/
def isDocument (path : FilePath) : Bool :=
  path.hasExtension "json"

/-- What a command makes of its settings and the text of its input, if it gets to them. -/
def withInput (path : FilePath) (inputs : Inputs) (overrides : List (String × Value)) (strict : Option Bool)
    (command : Settings → String → Outcome) : Except Settings.DocumentFault Outcome :=
  match inputs.text with
  | none => .ok (.failed 1 [inputNotFound path])
  | some text =>
    match Settings.load inputs.settings overrides strict with
    | .ok (.ok settings) => .ok (command settings (Text.readLines text))
    | .ok (.error complaints) => .ok (.failed 1 [invalidSettings complaints])
    | .error fault => .error fault

end TestHooks.CommandLine
