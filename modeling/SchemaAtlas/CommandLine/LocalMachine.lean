import SchemaAtlas.CommandLine.Machine
import SchemaAtlas.Text.Utf8

/-!
# The local machine

Files, directories and variables as the operating system gives them. Directories are
followed to a fixed depth, so that links in a circle come to an end.
-/

namespace SchemaAtlas.LocalMachine

def faultOf (e : IO.Error) : FileFault :=
  match e with
  | .noFileOrDirectory .. => .missing
  | .permissionDenied .. => .denied
  | .inappropriateType _ code _ =>
    if code = 20 then .notDirectory else if code = 21 then .isDirectory else .other (toString e)
  | e => .other (toString e)

/-- An action with its failure as a value. -/
def guarded {α : Type} (action : IO α) : IO (Except FileFault α) := do
  try return .ok (← action)
  catch e => return .error (faultOf e)

def isFile (path : String) : IO Bool := do
  match ← guarded (System.mkFilePath [path]).metadata with
  | .ok data => return data.type == .file
  | .error _ => return false

def readFile (path : String) : IO (Except FileFault String) := do
  match ← guarded (IO.FS.readBinFile path) with
  | .error fault => return .error fault
  | .ok octets =>
    match Utf8.decode octets.toList with
    | .ok text => return .ok text
    | .error _ => return .error .notText

def place (path : String) : IO (Except FileFault (List String)) :=
  guarded do return Machine.namesOf (← IO.FS.realPath path).toString

/-- The greatest number of directories inside one another. -/
def depthLimit : Nat := 64

/-- The names that lead to the files below a directory, in the order of the names. -/
def namesBelow : Nat → String → IO (List (List String))
  | 0, _ => return []
  | depth + 1, path => do
    match ← guarded (System.mkFilePath [path]).readDir with
    | .error _ => return []
    | .ok entries =>
      let names := (entries.toList.map (·.fileName)).mergeSort (· ≤ ·)
      let below ← names.mapM fun name => do
        let inner := path ++ "/" ++ name
        if ← isFile inner then return [[name]]
        else return (← namesBelow depth inner).map (name :: ·)
      return below.flatten

def filesBelow (path : String) (wanted : String → Bool) :
    IO (Except FileFault (List (List String × String))) := do
  let found := (← namesBelow depthLimit path).filter fun names => names.getLast?.any wanted
  let files ← found.mapM fun names => do
    return (← readFile (path ++ "/" ++ "/".intercalate names)).map fun text => (names, text)
  return files.mapM id

/-- The variables of this process, as the system lists them: each ends in a zero. -/
def environment : IO (List (String × String)) := do
  match ← guarded (IO.FS.readBinFile "/proc/self/environ") with
  | .error _ => return []
  | .ok octets =>
    return (octets.toList.splitOnP (· == 0)).filterMap fun octets =>
      match Utf8.decode octets with
      | .error _ => none
      | .ok text =>
        match text.splitOn "=" with
        | name :: value :: more => some (name, "=".intercalate (value :: more))
        | _ => none

def machine : Machine IO where
  workingDirectory := return Machine.namesOf (← IO.currentDir).toString
  environment := environment
  isFile := isFile
  readFile := readFile
  place := place
  filesBelow := filesBelow

end SchemaAtlas.LocalMachine
