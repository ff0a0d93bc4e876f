import SchemaAtlas.Entries
import SchemaAtlas.Json.Reader
import SchemaAtlas.Uri.Reader

/-!
# Documents in memory

Documents are kept under their URIs without fragments. Those that may be fetched are told
from those that are loaded already; fetching one loads it.
-/

namespace SchemaAtlas

structure Documents where
  available : List (Uri × Json)
  loaded : List (Uri × Json)
  deriving Inhabited

namespace Documents

def empty : Documents := ⟨[], []⟩

/-- Makes a document available. -/
def insert (uri : Uri) (document : Json) (d : Documents) : Documents :=
  { d with available := Entries.put uri.withoutFragment document d.available }

def ofList (documents : List (Uri × Json)) : Documents :=
  documents.foldl (fun d (uri, document) => d.insert uri document) empty

/-- Whether a file of this name holds a document: it ends in `.json` and is more than that. -/
def isDocumentName (name : String) : Bool :=
  let suffix := ".json".toList
  suffix.isSuffixOf name.toList && name.toList != suffix

/-- The documents among the files below a directory that is published under a URI. Each
file comes with the names that lead to it; files that are not JSON are left out. -/
def ofFiles (base : Uri) (files : List (List String × String)) : Except UriFault Documents :=
  files.foldlM (fun d (names, content) =>
    if names.getLast?.any isDocumentName then do
      let uri ← base.join ("/".intercalate names)
      match Json.read content with
      | some document => return d.insert uri document
      | none => return d
    else return d) empty

def loaded? (uri : Uri) (d : Documents) : Option Json := Entries.get? uri.withoutFragment d.loaded

/-- Records a document as loaded. -/
def register (uri : Uri) (document : Json) (d : Documents) : Documents :=
  { d with loaded := Entries.put uri.withoutFragment document d.loaded }

/-- An available document, which is then loaded. -/
def fetch? (uri : Uri) (d : Documents) : Option (Json × Documents) :=
  (Entries.get? uri.withoutFragment d.available).map fun document =>
    (document, d.register uri document)

def size (d : Documents) : Nat := d.available.length

def isEmpty (d : Documents) : Bool := d.available.isEmpty

/-- The URIs of the available documents, in the order of their texts. -/
def uris (d : Documents) : List String := Members.ofList (d.available.map fun e => e.1.text)

/-- The number of values in all documents. -/
def weight (d : Documents) : Nat :=
  (d.available ++ d.loaded).foldl (fun weight entry => weight + entry.2.size) 0

@[simp] theorem loaded?_register (uri other : Uri) (document : Json) (d : Documents) :
    (d.register uri document).loaded? other =
      if other.withoutFragment = uri.withoutFragment then some document else d.loaded? other := by
  simp [loaded?, register, Entries.get?_put]

end Documents
end SchemaAtlas
