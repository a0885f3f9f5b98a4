namespace TreeLint

/-!
# About the library

The name and the version under which the core of the engine is known to its users.
-/

def packageName : String := "weft-core"

def packageVersion : String := "0.1.0"

end TreeLint
