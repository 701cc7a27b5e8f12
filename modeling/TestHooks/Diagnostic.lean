import TestHooks.Position

/-!
# Diagnostics

Messages about an input, and the journal that collects them. In strict mode a journal records warnings as errors.
-/

namespace TestHooks

inductive Severity
  | error
  | warning
  | note
  deriving DecidableEq, Repr

def Severity.text : Severity → String
  | error => "error"
  | warning => "warning"
  | note => "note"

structure Diagnostic where
  severity : Severity
  message : String
  position : Option Position
  deriving DecidableEq, Repr

namespace Diagnostic

def isError (d : Diagnostic) : Bool := d.severity == .error

def isWarning (d : Diagnostic) : Bool := d.severity == .warning

/-- The diagnostic as recorded: in strict mode a warning is an error. -/
def promote (strict : Bool) (d : Diagnostic) : Diagnostic :=
  if strict && d.isWarning then { d with severity := .error } else d

/-- The diagnostic as one line of text, with its position in front if that is known. -/
def text (d : Diagnostic) : String :=
  let body := d.severity.text ++ ": " ++ d.message
  match d.position with
  | some p => toString p.line ++ ":" ++ toString p.column ++ ": " ++ body
  | none => body

@[simp] theorem promote_false (d : Diagnostic) : d.promote false = d := rfl

theorem promote_message (strict : Bool) (d : Diagnostic) : (d.promote strict).message = d.message := by
  unfold promote
  split <;> rfl

theorem promote_position (strict : Bool) (d : Diagnostic) : (d.promote strict).position = d.position := by
  unfold promote
  split <;> rfl

theorem isWarning_promote_true (d : Diagnostic) : (d.promote true).isWarning = false := by
  rcases d with ⟨severity, message, position⟩
  cases severity <;> rfl

end Diagnostic

/-- The diagnostics recorded so far, in order. -/
structure Journal where
  strict : Bool
  entries : List Diagnostic
  deriving DecidableEq, Repr

namespace Journal

def empty (strict : Bool) : Journal := ⟨strict, []⟩

def record (j : Journal) (d : Diagnostic) : Journal :=
  { j with entries := j.entries ++ [d.promote j.strict] }

def recordAll (j : Journal) (ds : List Diagnostic) : Journal :=
  ds.foldl record j

/-- Adds a diagnostic as it is. -/
def append (j : Journal) (d : Diagnostic) : Journal :=
  { j with entries := j.entries ++ [d] }

def firstError? (j : Journal) : Option Diagnostic :=
  j.entries.find? (·.isError)

def hasErrors (j : Journal) : Bool :=
  j.entries.any (·.isError)

theorem strict_recordAll (j : Journal) (ds : List Diagnostic) : (j.recordAll ds).strict = j.strict := by
  induction ds generalizing j with
  | nil => rfl
  | cons d ds ih => exact ih (j.record d)

theorem entries_recordAll (j : Journal) (ds : List Diagnostic) :
    (j.recordAll ds).entries = j.entries ++ ds.map (·.promote j.strict) := by
  induction ds generalizing j with
  | nil => simp [recordAll]
  | cons d ds ih =>
    have := ih (j.record d)
    rw [recordAll, List.foldl_cons, ← recordAll, this]
    simp [record]

end Journal

end TestHooks
