import TestHooks.Settings.OfValues
import TestHooks.Value.Toml

/-!
# Settings in documents

The settings of a project stand in the table `tool.hookgen` of a TOML document. Overrides replace what the document
says, and the choice of strict mode replaces both.
-/

namespace TestHooks.Settings

open TestHooks.Value

/-- Why a document has no readable settings. -/
inductive DocumentFault
  | malformed
  | toolsNotTable
  | settingsNotTable
  deriving DecidableEq, Repr

/-- The name of the files that settings stand in. -/
def fileName : String := "pyproject.toml"

/-- The entries about settings in a document. -/
def entriesIn (document : List (String × Value)) : Except DocumentFault (List (String × Value)) :=
  match lookup "tool" document with
  | none => .ok []
  | some (.table tools) =>
    match lookup "hookgen" tools with
    | none => .ok []
    | some (.table entries) => .ok entries
    | some _ => .error .settingsNotTable
  | some _ => .error .toolsNotTable

/-- The entries about settings in the text of a document, if there is one. -/
def readEntries : Option String → Except DocumentFault (List (String × Value))
  | none => .ok []
  | some text =>
    match Toml.read? text with
    | some document => entriesIn document
    | none => .error .malformed

/-- The overrides together with the choice of strict mode, if one is made. -/
def withStrict (strict : Option Bool) (overrides : List (String × Value)) : List (String × Value) :=
  match strict with
  | some b => insert "strict_mode" (.bool b) overrides
  | none => overrides

/-- The settings of a document under overrides. -/
def load (text : Option String) (overrides : List (String × Value)) (strict : Option Bool) :
    Except DocumentFault (Checked Settings) :=
  match readEntries text with
  | .ok entries => .ok (check (insertAll entries (withStrict strict overrides)))
  | .error fault => .error fault

theorem load_none_nil : load none [] none = .ok (.ok {}) := rfl

end TestHooks.Settings
