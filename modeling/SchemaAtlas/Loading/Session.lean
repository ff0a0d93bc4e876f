import SchemaAtlas.Cache
import SchemaAtlas.Documents
import SchemaAtlas.Json.Writer
import SchemaAtlas.Policy
import SchemaAtlas.Report
import SchemaAtlas.Schema.Store

/-!
# Loading sessions

A load runs in a session of its own. The session knows the documents that it opened, which
of them it is inside of, the nodes that are being read under every URI they answer to, the
references that are being followed, and the nodes that are finished. What it builds goes to
the cache only when the whole load succeeds.
-/

namespace SchemaAtlas

/-- A document with the drafts that it is read as. -/
structure OpenDocument where
  uri : Uri
  document : Json
  draft : Draft
  active : DraftSet
  deriving Inhabited

structure Session where
  policy : Policy
  /-- The cache as it was when the load began. -/
  cache : Cache
  documents : Documents
  store : Store
  report : Report
  /-- The documents being read, the innermost first. -/
  stack : List OpenDocument
  opened : List (Uri × OpenDocument)
  /-- The numbers of the nodes being read. -/
  inProgress : List (Uri × Nat)
  /-- The references being followed. -/
  resolving : List Uri
  /-- The finished nodes. -/
  built : List (Uri × Schema)
  deriving Inhabited

/-- Why a session ends early: at a fatal issue, which is in the report, or out of steps. -/
inductive Stop where
  | fatal
  | exhausted
  deriving DecidableEq, Repr

abbrev LoadM := ExceptT Stop (StateM Session)

namespace Session

def new (policy : Policy) (cache : Cache) (documents : Documents) (store : Store) : Session :=
  { policy, cache, documents, store, report := .empty, stack := [], opened := [], inProgress := [],
    resolving := [], built := [] }

/-- The document being read. -/
def current? (s : Session) : Option OpenDocument := s.stack.head?

/-- The documents in which a reference is looked for first: the one being read, and the
one that the load began with. -/
def nearby (s : Session) : List OpenDocument :=
  match s.stack.head?, s.stack.getLast? with
  | some current, some first => if current.uri = first.uri then [current] else [current, first]
  | _, _ => []

def push (document : OpenDocument) (s : Session) : Session := { s with stack := document :: s.stack }

def pop (s : Session) : Session := { s with stack := s.stack.tail }

def beginResolving (uri : Uri) (s : Session) : Session := { s with resolving := uri :: s.resolving }

def endResolving (uri : Uri) (s : Session) : Session :=
  { s with resolving := s.resolving.erase uri }

/-- Registers a node under URIs at which none is being read. -/
def register (id : Nat) (uris : List Uri) (s : Session) : Session :=
  { s with inProgress := uris.foldl (fun table uri => Entries.putNew uri id table) s.inProgress }

/-- Removes the registrations of a node. -/
def release (id : Nat) (uris : List Uri) (s : Session) : Session :=
  { s with
    inProgress := uris.foldl
      (fun table uri => if Entries.get? uri table = some id then Entries.erase uri table else table)
      s.inProgress }

/-- Records a finished node under URIs at which none is known. -/
def finish (schema : Schema) (uris : List Uri) (s : Session) : Session :=
  { s with built := uris.foldl (fun table uri => Entries.putNew uri schema table) s.built }

/-- Whether a node is known at a URI, finished or not. -/
def knows (uri : Uri) (s : Session) : Bool :=
  Entries.contains uri s.inProgress || Entries.contains uri s.built

def record (severity : Severity) (kind : IssueKind) (document : Uri) (path : Pointer)
    (message : String) (s : Session) : Session :=
  { s with
    report := s.report.record { path, document := document.text, kind, severity, message } }

/-- Opens a document, unless it is open already. -/
def openDocument (uri : Uri) (document : Json) (s : Session) : OpenDocument × Session :=
  match Entries.get? uri s.opened with
  | some found => (found, s)
  | none =>
    let metaSchema := (document.member? "$schema").bind Json.string?
    let (draft, active, unknown) := s.policy.draftsOf metaSchema
    let found : OpenDocument := { uri, document, draft, active }
    let s := match unknown with
      | some name =>
        s.record .warning .unknownMetaSchema uri (Pointer.root.child "$schema")
          s!"unknown meta-schema '{name}', assuming {draft}"
      | none => s
    (found, { s with opened := Entries.put uri found s.opened })

end Session

namespace LoadM

variable {α : Type}

/-- The outcome of a step, which does not end the session. -/
def attempt (x : LoadM α) : LoadM (Except Stop α) := ExceptT.mk (Except.ok <$> ExceptT.run x)

/-- A step between two changes of the session; the second is made even if the step ends it. -/
def between (before after : Session → Session) (x : LoadM α) : LoadM α := do
  modify before
  let outcome ← attempt x
  modify after
  MonadExcept.ofExcept outcome

def issue (severity : Severity) (kind : IssueKind) (location : Location) (message : String) :
    LoadM Unit :=
  modify (Session.record severity kind location.document location.path message)

/-- Records malformed input, an error only if the policy is strict. -/
def malformed (kind : IssueKind) (location : Location) (message : String) : LoadM Unit := do
  issue (if (← get).policy.strict then .error else .warning) kind location message

/-- Records an issue that ends the session. -/
def fatal (kind : IssueKind) (location : Location) (message : String) : LoadM α := do
  issue .error kind location message
  throw .fatal

/-- Runs a step on the store of nodes. -/
def onStore (step : Store → α × Store) : LoadM α :=
  modifyGet fun s =>
    let (a, store) := step s.store
    (a, { s with store })

end LoadM
end SchemaAtlas
