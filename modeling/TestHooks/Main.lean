import TestHooks.CommandLine

/-!
# The program

Reads the files that a command line asks for, and writes what comes of it.
-/

namespace TestHooks.CommandLine

/-- The text of a file that can be read. -/
def readFile? (path : FilePath) : IO (Option String) := do
  try
    return some (← IO.FS.readFile path.text)
  catch _ =>
    return none

/-- The paths of the files of a name in a directory and in those around it. -/
def candidates (directory : FilePath) (name : String) : List FilePath :=
  (List.range (directory.names.length + 1)).reverse.map fun n =>
    { directory with names := directory.names.take n ++ [name] }

/-- What a command on a file reads. -/
def readInputs (path : FilePath) : IO Inputs := do
  match ← readFile? path with
  | none => return ⟨none, none⟩
  | some text =>
    let directory ← IO.FS.realPath path.parent.text
    for candidate in candidates (.ofString directory.toString) Settings.fileName do
      if let some settings ← readFile? candidate then
        return ⟨some text, some settings⟩
    return ⟨some text, none⟩

/-- Shows a message with its level. -/
def printMessage (m : Log.Message) : IO Unit :=
  match m.seen? with
  | some shown => IO.println (shown.level.name ++ " " ++ shown.text)
  | none => throw (IO.userError "a message cannot be shown")

def printTable (t : Table) : IO Unit := do
  IO.println t.title
  for cells in Table.columns :: t.rows.map Row.cells do
    IO.println (Text.joinTexts " | " cells)

/-- Shows and writes an outcome. The last message on a file that is written is shown after that. -/
def deliver (o : Outcome) : IO UInt32 := do
  match o.written with
  | some (path, text) =>
    o.log.dropLast.forM printMessage
    IO.FS.createDirAll path.parent.text
    IO.FS.writeFile path.text text
    o.log.getLast?.forM printMessage
  | none => o.log.forM printMessage
  o.tables.forM printTable
  IO.print o.output
  return o.exitCode.toUInt32

def runProgram (args : List String) : IO UInt32 := do
  let inputs ← match Invocation.ofArguments? args with
    | some (.run request) => readInputs (.ofString request.path)
    | _ => pure ⟨none, none⟩
  match run args fun _ => inputs with
  | .ok outcome => deliver outcome
  | .error _ => throw (IO.userError (Settings.fileName ++ " holds no settings that can be read"))

end TestHooks.CommandLine

def main (args : List String) : IO UInt32 :=
  TestHooks.CommandLine.runProgram args
