import SchemaAtlas.Checksum
import SchemaAtlas.Json.Reader
import SchemaAtlas.Loading.Node

/-!
# Loading schemas

A document is turned into a schema whose references are all resolved. Loads work on a
workspace, which keeps the documents, the cache of schemas and the nodes from one load to
the next. A load that fails leaves the cache as it was.
-/

namespace SchemaAtlas

/-- What outlives a load. -/
structure Workspace where
  documents : Documents
  cache : Cache
  store : Store
  deriving Inhabited

/-- Why there is no schema. -/
inductive Failure where
  | invalidUri (fault : UriFault)
  | loading (report : Report)
  | documentNotFound (uri : Uri)
  | unresolvedReference (uri : Uri)
  /-- A text is not JSON. -/
  | json
  /-- The nodes are nested deeper than the documents allow; no load fails like this. -/
  | exhausted
  deriving DecidableEq, Repr

def Failure.message : Failure → String
  | .invalidUri fault => fault.message
  | .loading report => s!"Schema loading failed: {report.summary}"
  | .documentNotFound uri => s!"Document not found: {uri}"
  | .unresolvedReference uri => s!"Unresolved reference: {uri}"
  | .json => "JSON error"
  | .exhausted => "Schema loading did not end"

abbrev WorkspaceM := ExceptT Failure (StateM Workspace)

namespace Workspace

def empty : Workspace := ⟨.empty, .empty, .empty⟩

/-- A number of nested nodes that no load of these documents exceeds: between two references
nodes nest no deeper than a document has values, and the URIs of references are told apart
by two places of a document, that of the reference and that where the scope began. -/
def stepLimit (w : Workspace) : Nat := Nat.pow (w.documents.weight + 2) 3

/-- The schema and the report of a finished session, and the workspace after it. The cache
grows if there is a schema and no error. -/
def conclude (uri : Uri) (outcome : Except Stop (Option Schema)) (s : Session) :
    Except Failure (Schema × Report) × Workspace :=
  let before : Workspace := { documents := s.documents, cache := s.cache, store := s.store }
  match outcome with
  | .ok (some schema) =>
    if s.report.hasErrors then (.error (.loading s.report), before)
    else (.ok (schema, s.report),
      { before with cache := (s.cache.insertAll s.built).insert uri schema })
  | .ok none =>
    let document := (Location.ofDocument uri).document
    let s := s.record .error .typeMismatch document .root "document is not a schema"
    (.error (.loading s.report), before)
  | .error .fatal => (.error (.loading s.report), before)
  | .error .exhausted => (.error .exhausted, before)

/-- Loads the schema that `uri` names in the document at `documentUri`. -/
def loadFrom (policy : Policy) (uri documentUri : Uri) (document : Json) :
    WorkspaceM (Schema × Report) := do
  let w ← get
  let session := Session.new policy w.cache w.documents w.store
  let (opened, session) := session.openDocument documentUri document
  let root := Location.ofDocument documentUri
  match Lookup.locate opened.active.idKeys root document uri with
  | none => throw (.unresolvedReference uri)
  | some (location, value) =>
    let (outcome, session) :=
      (Loading.loadNode w.stepLimit location value 0).run (session.push opened)
    let (result, w) := conclude uri outcome session
    set w
    MonadExcept.ofExcept result

/-- The absolute identifier that a document declares, if it is another than its URI. -/
def alias? (policy : Policy) (uri : Uri) (document : Json) : Option Uri :=
  let (_, active, _) := policy.draftsOf ((document.member? "$schema").bind Json.string?)
  match (Lookup.declaredId? active.idKeys document).map Uri.read with
  | some (.ok id) =>
    let declared := id.withoutFragment.normalized
    if declared = uri then none else some declared
  | _ => none

/-- Loads a document as the one at a URI, with the issues that do not stand in the way. -/
def readReporting (policy : Policy) (uri : Uri) (document : Json) :
    WorkspaceM (Schema × Report) := do
  let uri := uri.withoutFragment.normalized
  match (← get).cache.get? uri with
  | some schema => return (schema, .empty)
  | none =>
    modify fun w => { w with documents := w.documents.register uri document }
    match alias? policy uri document with
    | some other => modify fun w => { w with documents := w.documents.register other document }
    | none => pure ()
    loadFrom policy uri uri document

/-- Loads a document as the one at a URI. -/
def readAt (policy : Policy) (uri : Uri) (document : Json) : WorkspaceM Schema :=
  return (← readReporting policy uri document).1

/-- Loads a document that has no URI; it is named by its content. -/
def read (policy : Policy) (document : Json) : WorkspaceM Schema :=
  readAt policy (documentName document) document

/-- Loads a document from its text. -/
def readText (policy : Policy) (text : String) : WorkspaceM Schema :=
  match Json.read text with
  | some document => read policy document
  | none => throw .json

/-- Loads the schema at a URI, which may have a fragment, from the documents. -/
def loadUri (policy : Policy) (uri : Uri) : WorkspaceM Schema := do
  let uri := uri.normalized
  let w ← get
  match w.cache.get? uri with
  | some schema => return schema
  | none =>
    let documentUri := uri.withoutFragment
    match w.documents.loaded? documentUri with
    | some document => return (← loadFrom policy uri documentUri document).1
    | none =>
      match w.documents.fetch? documentUri with
      | none => throw (.documentNotFound documentUri)
      | some (document, documents) =>
        set { w with documents }
        return (← loadFrom policy uri documentUri document).1

end Workspace
end SchemaAtlas
