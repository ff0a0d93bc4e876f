/-!
# The machine of a command

What a command asks of the machine on which it runs. A path is a text with slashes; a place
is the list of names from the root to it, in which every link is resolved.
-/

namespace SchemaAtlas

/-- Why a file cannot be read. -/
inductive FileFault where
  | missing
  | isDirectory
  | notDirectory
  | denied
  | notText
  | other (message : String)
  deriving DecidableEq, Repr, Inhabited

def FileFault.message : FileFault → String
  | .missing => "No such file or directory (os error 2)"
  | .isDirectory => "Is a directory (os error 21)"
  | .notDirectory => "Not a directory (os error 20)"
  | .denied => "Permission denied (os error 13)"
  | .notText => "stream did not contain valid UTF-8"
  | .other message => message

/-- A machine with files and an environment. -/
structure Machine (m : Type → Type) where
  workingDirectory : m (List String)
  environment : m (List (String × String))
  isFile : String → m Bool
  readFile : String → m (Except FileFault String)
  /-- The place that a path names. -/
  place : String → m (Except FileFault (List String))
  /-- The files anywhere below a directory whose names pass a test, each with the names that
  lead to it. A path that names no directory has none. -/
  filesBelow : String → (String → Bool) → m (Except FileFault (List (List String × String)))

namespace Machine

/-- The names of a path that say more than staying where one is. -/
def namesOf (path : String) : List String :=
  (path.splitOn "/").filter fun name => name != "" && name != "."

def isAbsolute (path : String) : Bool := path.toList.head? = some '/'

def pathOf (place : List String) : String := "/" ++ "/".intercalate place

/-- The place of a path by its names alone, from a working directory. -/
def written (directory : List String) (path : String) : List String :=
  if isAbsolute path then namesOf path else directory ++ namesOf path

end Machine
end SchemaAtlas
