import SchemaAtlas.CommandLine.Machine
import SchemaAtlas.Documents
import SchemaAtlas.Settings.Reader
import SchemaAtlas.Toml.Reader

/-!
# Where settings come from

Settings files stand in the working directory and in the user's directory of settings; one
more may be named. Every source overrides those before it, the named file all other files
and the environment all files.
-/

namespace SchemaAtlas

/-- Why there are no settings. -/
inductive SettingsFault where
  | notFound (path : String)
  | unknownFormat (path : String)
  | malformed (path : String)
  /-- A value does not suit its field. -/
  | unsuitable
  deriving DecidableEq, Repr

def SettingsFault.message : SettingsFault → String
  | .notFound path => s!"configuration file \"{path}\" not found"
  | .unknownFormat path =>
    s!"configuration file \"{path}\" is not of a registered file format"
  | .malformed path => s!"configuration file \"{path}\" cannot be read"
  | .unsuitable => "a setting has an unsuitable value"

namespace Settings

/-! ## Files -/

inductive FileFormat where
  | toml
  | json
  deriving DecidableEq, Repr

namespace FileFormat

def all : List FileFormat := [.toml, .json]

def extension : FileFormat → String
  | .toml => "toml"
  | .json => "json"

/-- The tree of a file of this format. -/
def read (text : String) : FileFormat → Option (List (String × Setting))
  | .toml => Toml.read text
  | .json =>
    let ofInt (i : Int) : Setting := if i < Nat.pow 2 63 then .integer i else .float (.ofInt i)
    match (Json.read text).map (Setting.ofJson ofInt) with
    | some (.table entries) => some entries
    | _ => none

/-- The format that the end of a name stands for, after its last point. -/
def ofName? (name : String) : Option FileFormat :=
  let cs := name.toList.reverse
  let ending := cs.takeWhile (· != '.')
  let stem := cs.drop (ending.length + 1)
  if stem.isEmpty then none
  else all.find? fun format => format.extension = String.ofList ending.reverse

end FileFormat

/-- The files that are looked for in the working directory. -/
def usualFiles : List String :=
  ["schema-graph.toml", ".schema-graph.toml", "config/schema-graph.toml"]

/-- The settings file of the user, if there is a directory for it. -/
def userFile? (environment : List (String × String)) : Option String :=
  let directory := match Entries.get? "XDG_CONFIG_HOME" environment with
    | some path => if Machine.isAbsolute path then some path else none
    | none => none
  let home := match Entries.get? "HOME" environment with
    | some path => if path.isEmpty then none else some (path ++ "/.config")
    | none => none
  (directory.or home).map (· ++ "/schema-graph/schema-graph.toml")

/-! ## The environment -/

/-- How the names of the variables start that are settings. -/
def variableStart : String := "schema_graph__"

/-- A variable's text as a flag, a number or a text. -/
def ofVariable (text : String) : Setting :=
  match text.toLower with
  | "true" => .boolean true
  | "false" => .boolean false
  | _ =>
    match (Extended.readInt text.toList).bind Toml.integerOfInt? with
    | some setting => setting
    | none =>
      match Extended.read text.toList with
      | some x => .float x
      | none => .text text

/-- The settings among the variables; two underscores separate the parts of a name. -/
def ofEnvironment (environment : List (String × String)) : List (String × Setting) :=
  environment.filterMap fun (name, text) =>
    let name := name.toLower.toList
    if variableStart.toList.isPrefixOf name then
      let rest := String.ofList (name.drop variableStart.length)
      some (".".intercalate (rest.splitOn "__"), ofVariable text)
    else none

/-! ## All sources -/

section

variable {m : Type → Type} [Monad m] (machine : Machine m)

/-- A settings file: the named one, or one whose name has an extension more. -/
def locate (path : String) : ExceptT SettingsFault m (String × FileFormat) := do
  if ← machine.isFile path then
    match ((Machine.namesOf path).getLast?).bind FileFormat.ofName? with
    | some format => return (path, format)
    | none => throw (.unknownFormat path)
  for format in FileFormat.all do
    let longer := path ++ "." ++ format.extension
    if ← machine.isFile longer then return (longer, format)
  throw (.notFound path)

def readFile (path : String) (format : FileFormat) :
    ExceptT SettingsFault m (List (String × Setting)) := do
  match ← machine.readFile path with
  | .error _ => throw (.malformed path)
  | .ok text =>
    match format.read text with
    | some layer => return layer
    | none => throw (.malformed path)

/-- The layer of a file that may be missing. -/
def optionalFile (path : String) : ExceptT SettingsFault m (List (String × Setting)) := do
  match ← ExceptT.lift (locate machine path).run with
  | .error _ => return []
  | .ok (path, format) => readFile machine path format

def requiredFile (path : String) : ExceptT SettingsFault m (List (String × Setting)) := do
  let (path, format) ← locate machine path
  readFile machine path format

/-- The settings of all sources. -/
def load (named : Option String) : ExceptT SettingsFault m Settings := do
  let environment ← machine.environment
  let files ← (usualFiles ++ (userFile? environment).toList).mapM (optionalFile machine)
  let more ← named.toList.mapM (requiredFile machine)
  match ofLayers (files ++ more ++ [ofEnvironment environment]) with
  | some settings => return settings
  | none => throw .unsuitable

end

/-! ## Documents -/

/-- Why there are no documents. -/
inductive DocumentsFault where
  | invalidUri (fault : UriFault)
  | unreadable (fault : FileFault)
  deriving DecidableEq, Repr

section

variable {m : Type → Type} [Monad m] (machine : Machine m)

/-- The documents below a directory that is published under a URI. -/
def documentsBelow (path : String) (base : Uri) : ExceptT DocumentsFault m Documents := do
  match ← machine.filesBelow path Documents.isDocumentName with
  | .error fault => throw (.unreadable fault)
  | .ok files => MonadExcept.ofExcept ((Documents.ofFiles base files).mapError .invalidUri)

/-- The documents of the directory that the settings name, under its own URI if they give
none; `none` if they name no directory. -/
def documents? (s : Settings) : ExceptT DocumentsFault m (Option Documents) := do
  match s.documents.directory with
  | none => return none
  | some directory =>
    let base ← match s.documents.baseUri with
      | some uri => MonadExcept.ofExcept ((Uri.read uri).mapError DocumentsFault.invalidUri)
      | none => do
        pure (Uri.ofDirectoryPath (Machine.written (← machine.workingDirectory) directory))
    return some (← documentsBelow machine directory base)

end

end Settings
end SchemaAtlas
