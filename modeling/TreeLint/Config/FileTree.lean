import TreeLint.Error

namespace TreeLint

/-!
# File trees

A `FileTree` is a tree of directories and files as a program sees it from its working directory.

* `FileTree.resolve` follows a path to a place in the tree.
* `FileTree.readText` gives the text of a file.

A `Place` lists the names from the root of the tree on. Directories are also the places above the
entries of a tree.
-/

/-- A place in a file tree: the names on the way there. -/
abbrev Place := List String

/-- What stands at a place. -/
inductive FileContent where
  | directory
  | file (bytes : ByteArray)

/-- Why a path cannot be followed or a file cannot be read. -/
inductive FileFault where
  | notFound
  | isDirectory
  | notDirectory
  | invalidText
  deriving DecidableEq

/-- The wording of a fault. -/
def FileFault.message : FileFault → String
  | notFound => "No such file or directory (os error 2)"
  | isDirectory => "Is a directory (os error 21)"
  | notDirectory => "Not a directory (os error 20)"
  | invalidText => "stream did not contain valid UTF-8"

/-- Directories and files, and the working directory. -/
structure FileTree where
  entries : List (Place × FileContent)
  workingDirectory : Place := []

namespace FileTree

/-! ### Places -/

/-- What stands at a place. -/
def get? (tree : FileTree) (place : Place) : Option FileContent :=
  match tree.entries.lookup place with
  | some content => some content
  | none =>
    if place.isEmpty || tree.entries.any (place.isPrefixOf ·.1) then some .directory else none

/-- A file stands at the place. -/
def isFile (tree : FileTree) (place : Place) : Bool :=
  match tree.get? place with
  | some (.file _) => true
  | _ => false

/-- The place as an absolute path. -/
def pathOf (place : Place) : String := "/" ++ "/".intercalate place

/-! ### Paths -/

/-- Follow names from a place on. Every place that a name is looked up at must be a directory. -/
def follow (tree : FileTree) : Place → List String → Except FileFault Place
  | place, [] => .ok place
  | place, name :: names =>
    match tree.get? place with
    | none => .error .notFound
    | some (.file _) => .error .notDirectory
    | some .directory =>
      if name = "" || name = "." then tree.follow place names
      else if name = ".." then tree.follow place.dropLast names
      else if (tree.get? (place ++ [name])).isSome then tree.follow (place ++ [name]) names
      else .error .notFound

/-- The place to which a path leads. -/
def resolve (tree : FileTree) (path : String) : Except FileFault Place :=
  if path = "" then .error .notFound
  else tree.follow (if path.startsWith "/" then [] else tree.workingDirectory) (path.splitOn "/")

/-- The path leads to something. -/
def leadsSomewhere (tree : FileTree) (path : String) : Bool :=
  (tree.resolve path).toOption.isSome

/-- Make the directory that a path leads to the working directory. -/
def enter (tree : FileTree) (path : String) : FileTree :=
  match tree.resolve path with
  | .ok place => { tree with workingDirectory := place }
  | .error _ => tree

/-- The text of the file that a path leads to. -/
def readText (tree : FileTree) (path : String) : Except FileFault String := do
  let place ← tree.resolve path
  match tree.get? place with
  | some (.file bytes) =>
    match String.fromUTF8? bytes with
    | some text => return text
    | none => throw .invalidText
  | some .directory => throw .isDirectory
  | none => throw .notFound

/-- The last name of a path, if it is one. -/
def fileName? (path : String) : Option String := do
  let name ← ((path.splitOn "/").filter fun name => name ≠ "" && name ≠ ".").getLast?
  if name = ".." then none else some name

/-- What stands after the last dot of the last name of a path. A dot at the start of the name does
    not count. -/
def extension? (path : String) : Option String := do
  let name ← fileName? path
  match (name.splitOn ".").reverse with
  | last :: before => if before.all (· = "") && before.length ≤ 1 then none else some last
  | [] => none

end FileTree

end TreeLint
