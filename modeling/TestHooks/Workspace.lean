import TestHooks.Value
import TestHooks.Workspace.FilePath

/-!
# Workspaces

The files below a working directory. A directory is there if a file is below it. What lies outside the working
directory is not part of the workspace.
-/

namespace TestHooks

/-- The names on the way from the working directory to a file or directory. -/
abbrev Route := List String

structure Workspace where
  files : List (Route × String)
  deriving Repr

/-- Why a file cannot be written. -/
inductive WriteFault
  | isDirectory
  | parentIsFile
  | insideFile
  deriving DecidableEq, Repr

namespace Workspace

/-- The text of the file at the end of a route. -/
def textAt? (w : Workspace) (route : Route) : Option String :=
  (w.files.find? (·.1 == route)).map Prod.snd

def isFileAt (w : Workspace) (route : Route) : Bool :=
  (w.textAt? route).isSome

def isDirectoryAt (w : Workspace) (route : Route) : Bool :=
  route.isEmpty || w.files.any fun file => route.isPrefixOf file.1 && route != file.1

/-- The route that names lead to from a directory, through directories that are there. -/
def follow? (w : Workspace) (start : Route) : List String → Option Route
  | [] => some start
  | name :: names =>
    if !w.isDirectoryAt start then none
    else if name = ".." then
      if start.isEmpty then none else w.follow? start.dropLast names
    else w.follow? (start ++ [name]) names

/-- The route that names lead to from a directory when every directory on the way is made. -/
def resolve? (start : Route) : List String → Option Route
  | [] => some start
  | name :: names =>
    if name = ".." then
      if start.isEmpty then none else resolve? start.dropLast names
    else resolve? (start ++ [name]) names

/-- The route of an existing file. -/
def fileAt? (w : Workspace) (path : FilePath) : Option Route :=
  if path.root.isEmpty then (w.follow? [] path.names).filter w.isFileAt else none

/-- The route of a path whose directories are made if they are not there. -/
def routeOf? (path : FilePath) : Option Route :=
  if path.root.isEmpty then resolve? [] path.names else none

/-- The text of the nearest file of a name, from a directory upwards. -/
def nearest? (w : Workspace) (name : String) (directory : Route) : Option String :=
  let around := (List.range (directory.length + 1)).reverse.map directory.take
  around.findSome? fun route => w.textAt? (route ++ [name])

/-- The workspace with a file at the end of a route, in place of one that was there. -/
def put (w : Workspace) (route : Route) (text : String) : Workspace :=
  ⟨w.files.filter (·.1 != route) ++ [(route, text)]⟩

/-- The workspace after a file has been written. Files outside do not change it. -/
def write (w : Workspace) (path : FilePath) (text : String) : Except WriteFault Workspace :=
  match routeOf? path with
  | none => .ok w
  | some route =>
    if w.isFileAt route.dropLast then .error .parentIsFile
    else if (List.range route.length).any fun n => w.isFileAt (route.take n) then .error .insideFile
    else if w.isDirectoryAt route then .error .isDirectory
    else .ok (w.put route text)

/-- The files that are new or have other texts than before. -/
def changes (before after : Workspace) : List (Route × String) :=
  after.files.filter fun file => before.textAt? file.1 != some file.2

theorem textAt?_put (w : Workspace) (route : Route) (text : String) :
    (w.put route text).textAt? route = some text := by
  have : (w.files.filter (·.1 != route)).find? (·.1 == route) = none := by
    simp [List.find?_eq_none]
  simp [put, textAt?, List.find?_append, this]

theorem changes_self (w : Workspace) (h : (w.files.map Prod.fst).Nodup) : changes w w = [] := by
  simp only [changes, List.filter_eq_nil_iff]
  intro file hf
  have : w.textAt? file.1 = some file.2 := by
    rcases w with ⟨files⟩
    simp only at h hf
    simp only [textAt?]
    induction files with
    | nil => simp at hf
    | cons head files ih =>
      rw [List.map_cons, List.nodup_cons] at h
      rcases List.mem_cons.1 hf with rfl | hf
      · simp
      · have hne : head.1 ≠ file.1 := fun he => h.1 (he ▸ List.mem_map_of_mem hf)
        simpa [hne] using ih h.2 hf
  simp [this]

end Workspace

end TestHooks
