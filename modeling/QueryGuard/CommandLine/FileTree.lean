import QueryGuard.CommandLine.Sources
/-!
Files held in memory, and how a path leads to one of them. A path is walked name by name, and each
name is looked up in the folder reached so far.
-/

set_option autoImplicit false

namespace QueryGuard.CommandLine

/-- The names on the way from the root. -/
abbrev Place := List String

/-- What stands at a place. -/
inductive Node where
  | folder
  | file (text : String)
deriving DecidableEq, Repr

/-- Files by their places, and the folder where relative paths start. -/
structure FileTree where
  files : List (Place × String)
  start : Place

namespace FileTree

/-- The folders are the places above the files, and the one where paths start with those above. -/
def isFolder (tree : FileTree) (place : Place) : Bool :=
  place.isPrefixOf tree.start || tree.files.any fun file => place.isPrefixOf file.1

def node? (tree : FileTree) (place : Place) : Option Node :=
  match tree.files.lookup place with
  | some text => some (.file text)
  | none => if tree.isFolder place then some .folder else none

/-- The bytes that a name may have. -/
def nameLimit : Nat := 255

/-- The bytes that a path may have. -/
def pathLimit : Nat := 4095

/-- The place that a name leads to. It is looked up in a folder only. -/
def step (tree : FileTree) (place : Place) (name : String) : Except FileError Place :=
  match tree.node? place with
  | none => throw .missing
  | some (.file _) => throw .notFolder
  | some .folder =>
      if name = "" ∨ name = "." then return place
      else if name = ".." then return place.dropLast
      else if nameLimit < name.utf8ByteSize then throw .nameTooLong
      else if (tree.node? (place ++ [name])).isSome then return place ++ [name]
      else throw .missing

/-- The place that names lead to, one after the other. -/
def walk (tree : FileTree) (place : Place) (names : List String) : Except FileError Place :=
  names.foldlM tree.step place

/-- The names of a path, which slashes separate. -/
def names (path : String) : List String := (path.toList.splitOn '/').map String.ofList

/-- The place of a path, walked from the root if it begins with a slash. -/
def place (tree : FileTree) (path : String) : Except FileError Place :=
  if path.isEmpty then throw .missing
  else if pathLimit < path.utf8ByteSize then throw .nameTooLong
  else tree.walk (if path.toList.head? = some '/' then [] else tree.start) (names path)

/-- The text of the file at a path. -/
def read (tree : FileTree) (path : String) : Except FileError String := do
  match tree.node? (← tree.place path) with
  | some (.file text) => return text
  | some .folder => throw .folder
  | none => throw .missing

/-- Reads files of the tree, and an input. -/
def sources (tree : FileTree) (input : String) : Sources Id where
  file path := (tree.read path).mapError .file
  input := .ok input

theorem walk_append (tree : FileTree) (place : Place) (first last : List String) :
    tree.walk place (first ++ last) = (tree.walk place first).bind (tree.walk · last) := by
  simp only [walk, List.foldlM_append]
  rfl

/-- No name is looked up in a file. -/
theorem step_file {tree : FileTree} {place : Place} {text : String}
    (file : tree.node? place = some (.file text)) (name : String) :
    tree.step place name = .error .notFolder := by
  simp only [step, file]
  rfl

/-- Empty names and dots stay in a folder. -/
theorem step_stay {tree : FileTree} {place : Place} (folder : tree.node? place = some .folder)
    {name : String} (stay : name = "" ∨ name = ".") : tree.step place name = .ok place := by
  simp only [step, folder, stay, if_true]
  rfl

end FileTree

end QueryGuard.CommandLine
