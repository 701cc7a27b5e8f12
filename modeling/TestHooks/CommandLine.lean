import TestHooks.CommandLine.Arguments
import TestHooks.CommandLine.Expand
import TestHooks.CommandLine.Inspect
import TestHooks.Settings.KeyValue

/-!
# The command line

Runs what the words of a command line ask for. The exit code is 2 for a wrong command line or a wrong item of
settings, 1 for a command that failed, and 0 otherwise.
-/

namespace TestHooks.CommandLine

def versionText : String := "hookgen 0.1.0\n"

/-- The outcome of a command, given what it reads. Items of settings are read before anything else. -/
def Request.run (r : Request) (inputs : Inputs) : Except Settings.DocumentFault Outcome :=
  match Settings.ofItems r.items with
  | .error message => .ok (.failed 2 [.error message])
  | .ok overrides =>
    let path := FilePath.ofString r.path
    match r.command with
    | .expand out strict => expand path (out.map .ofString) strict overrides inputs
    | .inspect => inspect path overrides inputs

/-- The outcome of a command line, given what each file that may be asked for makes a command read. -/
def run (args : List String) (read : FilePath → Inputs) : Except Settings.DocumentFault Outcome :=
  match Invocation.ofArguments? args with
  | none => .ok (.failed 2 [])
  | some .help => .ok { exitCode := 0 }
  | some .version => .ok { exitCode := 0, output := versionText }
  | some (.run request) => request.run (read (.ofString request.path))

theorem run_nil (read : FilePath → Inputs) : run [] read = .ok (.failed 2 []) := rfl

end TestHooks.CommandLine
