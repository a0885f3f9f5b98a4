import TreeLint.Config.Decode
import TreeLint.Config.FileTree

namespace TreeLint.FileTree

/-!
# Finding and loading configuration files

* `discover` looks for a configuration file in a directory and in those above it.
* `loadFile` reads the configuration from a file and validates it.
* `load` takes the file that is asked for, else the one that is found, else the default
  configuration.
-/

/-! ### Discovery -/

/-- The first configuration file of a directory, in the order of `Config.fileNames`. -/
def configIn? (tree : FileTree) (place : Place) : Option Place :=
  (Config.fileNames.map fun name => place ++ [name]).find? tree.isFile

/-- A place and those above it, the nearest first. -/
def upwards (place : Place) : List Place :=
  ((List.range (place.length + 1)).map place.take).reverse

/-- The nearest configuration file at or above a place. -/
def nearestConfig? (tree : FileTree) (place : Place) : Option Place :=
  (upwards place).findSome? tree.configIn?

/-- Look for a configuration file from the directory that a path leads to upwards. -/
def discover (tree : FileTree) (start : String) : Except Error (Option String) :=
  match tree.resolve start with
  | .ok place => .ok ((tree.nearestConfig? place).map pathOf)
  | .error fault => .error (.config ("Invalid path: " ++ fault.message))

/-! ### Loading -/

/-- Read the configuration from a file, whose extension tells the format. -/
def loadFile (tree : FileTree) (path : String) : Except Error Config :=
  match tree.readText path with
  | .error fault => .error (.io path fault.message)
  | .ok text =>
    match (extension? path).bind FileFormat.ofExtension? with
    | none =>
      .error (.config
        ("Unsupported config file '" ++ path ++ "' (expected .yaml, .yml, .json or .toml)"))
    | some format =>
      match format.decode? text with
      | none => .error (.config ("Failed to load config from '" ++ path ++ "'"))
      | some config => config.validate

/-- Load the file that is asked for, else the one that is found from `start` or the working
    directory upwards, else take the default configuration. -/
def load (tree : FileTree) (path? start? : Option String) : Except Error Config :=
  match path? with
  | some path =>
    if tree.leadsSomewhere path then tree.loadFile path
    else .error (.config ("Config file not found: " ++ path))
  | none => do
    match ← tree.discover (start?.getD ".") with
    | some path => tree.loadFile path
    | none => return {}

end TreeLint.FileTree
