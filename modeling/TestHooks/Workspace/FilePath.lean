import TestHooks.Text.Lines

/-!
# Paths of files

A path is a list of names after a root. Empty names and names of one dot say nothing and are left out; names of two
dots are kept, for what they mean depends on the directories.
-/

namespace TestHooks

open TestHooks.Text

/-- A path. The root is empty for a path that starts in the working directory. -/
structure FilePath where
  root : String
  names : List String
  deriving DecidableEq, Repr

namespace FilePath

/-- The root of a path: two slashes at the beginning stay, and more than two mean one. -/
def rootOf (s : String) : String :=
  match (s.toList.takeWhile (· == '/')).length with
  | 0 => ""
  | 2 => "//"
  | _ => "/"

def ofString (s : String) : FilePath :=
  ⟨rootOf s, ((splitAt '/' s.toList).map String.ofList).filter fun name => !name.isEmpty && name != "."⟩

/-- The path as text. The path without names and root is a dot. -/
def text (p : FilePath) : String :=
  if p.root.isEmpty && p.names.isEmpty then "." else p.root ++ joinTexts "/" p.names

/-- The path of the directory around a file. -/
def parent (p : FilePath) : FilePath :=
  { p with names := p.names.dropLast }

/-- The last name of the path, or an empty one. -/
def name (p : FilePath) : String :=
  p.names.getLast?.getD ""

/-- True if the name ends in the extension and says something before it. -/
def hasExtension (extension : String) (p : FilePath) : Bool :=
  let (name, ending) := (p.name.toList, '.' :: extension.toList)
  ending.isSuffixOf name && ending.length < name.length

theorem text_ofString_dot : (ofString ".").text = "." := by decide +kernel

theorem hasExtension_name_only : (ofString ".json").hasExtension "json" = false := by decide +kernel

end FilePath

end TestHooks
