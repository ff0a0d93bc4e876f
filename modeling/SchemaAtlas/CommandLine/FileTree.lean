import SchemaAtlas.CommandLine.Machine
import SchemaAtlas.Entries

/-!
# File trees in memory

A machine whose files are given beforehand. Its directories are those on the way to a file
or to the working directory. A path is walked name by name, and only directories lead on.
-/

namespace SchemaAtlas

structure FileTree where
  directory : List String
  /-- The files by their places. -/
  files : List (List String × String)
  environment : List (String × String)
  deriving Inhabited

namespace FileTree

/-- The tree in which `files` are given by their paths from the working directory. -/
def ofFiles (directory : List String) (files : List (String × String))
    (environment : List (String × String)) : FileTree :=
  { directory, files := files.map fun (path, text) => (directory ++ Machine.namesOf path, text)
    environment }

def file? (t : FileTree) (place : List String) : Option String := Entries.get? place t.files

def isDirectory (t : FileTree) (place : List String) : Bool :=
  place.isPrefixOf t.directory ||
    t.files.any fun (names, _) => place.isPrefixOf names && place != names

def step (t : FileTree) (place : List String) (name : String) :
    Except FileFault (List String) :=
  if !t.isDirectory place then .error .notDirectory
  else if name = "" || name = "." then .ok place
  else if name = ".." then .ok place.dropLast
  else if (t.file? (place ++ [name])).isSome || t.isDirectory (place ++ [name]) then
    .ok (place ++ [name])
  else .error .missing

def place (t : FileTree) (path : String) : Except FileFault (List String) :=
  if path.isEmpty then .error .missing
  else (path.splitOn "/").foldlM t.step (if Machine.isAbsolute path then [] else t.directory)

def read (t : FileTree) (path : String) : Except FileFault String := do
  match t.file? (← t.place path) with
  | some text => return text
  | none => throw .isDirectory

def isFile (t : FileTree) (path : String) : Bool :=
  match t.read path with
  | .ok _ => true
  | .error _ => false

def filesBelow (t : FileTree) (path : String) (wanted : String → Bool) :
    List (List String × String) :=
  match t.place path with
  | .error _ => []
  | .ok place =>
    t.files.filterMap fun (names, text) =>
      if place.isPrefixOf names && place != names && names.getLast?.any wanted then
        some (names.drop place.length, text)
      else none

def machine (t : FileTree) : Machine Id where
  workingDirectory := t.directory
  environment := t.environment
  isFile path := t.isFile path
  readFile path := t.read path
  place path := t.place path
  filesBelow path wanted := .ok (t.filesBelow path wanted)

end FileTree
end SchemaAtlas
