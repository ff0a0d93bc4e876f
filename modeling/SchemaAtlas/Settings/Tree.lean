import SchemaAtlas.Decimal.Extended
import SchemaAtlas.Json.Basic

/-!
# Trees of settings

What a settings file says, whatever its format, is a tree of named values. Trees from
several sources are laid over one another: a later value replaces an earlier one, and
tables are combined entry by entry. Names are compared without regard to case, so the
tables of a combined tree have small letters only.
-/

namespace SchemaAtlas

inductive Setting where
  /-- A name that is present without a value. -/
  | absent
  | boolean (value : Bool)
  | integer (value : Int)
  | float (value : Extended)
  | text (value : String)
  | list (elements : List Setting)
  | table (entries : List (String × Setting))
  deriving Inhabited

namespace Setting

/-- The entries of a table; what is no table has none. -/
def entries : Setting → List (String × Setting)
  | .table entries => entries
  | _ => []

mutual

/-- The tree of a JSON value, given what becomes of integers. -/
def ofJson (ofInt : Int → Setting) : Json → Setting
  | .null => .absent
  | .bool b => .boolean b
  | .number (.integer i) => ofInt i
  | .number (.float x) => .float (.finite x)
  | .string s => .text s
  | .array elements => .list (ofElements ofInt elements)
  | .object members => .table (ofMembers ofInt members)

def ofElements (ofInt : Int → Setting) : List Json → List Setting
  | [] => []
  | e :: rest => ofJson ofInt e :: ofElements ofInt rest

def ofMembers (ofInt : Int → Setting) : List (String × Json) → List (String × Setting)
  | [] => []
  | (key, value) :: rest => (key, ofJson ofInt value) :: ofMembers ofInt rest

end

mutual

/-- The JSON value of a tree; a number that is not finite is written as none. -/
def toJson : Setting → Json
  | .absent => .null
  | .boolean b => .bool b
  | .integer i => .number (.integer i)
  | .float (.finite x) => .number (.float x)
  | .float _ => .null
  | .text s => .string s
  | .list elements => .array (toElements elements)
  | .table entries => .ofMembers (toMembers entries)

def toElements : List Setting → List Json
  | [] => []
  | e :: rest => e.toJson :: toElements rest

def toMembers : List (String × Setting) → List (String × Json)
  | [] => []
  | (name, value) :: rest => (name, value.toJson) :: toMembers rest

end

mutual

/-- Lays a value over the one of an entry. A table without entries changes nothing. -/
def put (name : String) (value : Setting) (entries : List (String × Setting)) :
    List (String × Setting) :=
  match value with
  | .table [] => Entries.insert name ((Entries.get? name entries).getD (.table [])) entries
  | .table (e :: rest) =>
    let old := (Entries.get? name entries).getD (.table [])
    Entries.insert name (.table (putAll (e :: rest) old.entries)) entries
  | value => Entries.insert name value entries

def putAll (incoming : List (String × Setting)) (entries : List (String × Setting)) :
    List (String × Setting) :=
  match incoming with
  | [] => entries
  | (name, value) :: rest => putAll rest (put name.toLower value entries)

end

/-- Lays a value over the one at the end of a path of names; tables are made on the way. -/
def putAt : List String → Setting → List (String × Setting) → List (String × Setting)
  | [], _, entries => entries
  | [name], value, entries => put name.toLower value entries
  | name :: path, value, entries =>
    let inner := ((Entries.get? name.toLower entries).getD (.table [])).entries
    Entries.insert name.toLower (.table (putAt path value inner)) entries

/-- Letters, digits, blanks, underscores and dashes. -/
def isNameChar (c : Char) : Bool := c.isAlphanum || c = ' ' || c = '_' || c = '-'

/-- The path that a name at the top stands for: points separate its parts if each of them
is plain. -/
def pathOf (name : String) : List String :=
  let parts := name.splitOn "."
  if parts.all fun part => !part.isEmpty && part.toList.all isNameChar then parts else [name]

/-- The layers on top of one another, the first one lowest. -/
def ofLayers (layers : List (List (String × Setting))) : Setting :=
  .table (layers.flatten.foldl (fun entries (name, value) =>
    putAt (pathOf name) value entries) [])

end Setting
end SchemaAtlas
