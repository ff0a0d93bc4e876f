import SchemaAtlas.Loading.Digest
import SchemaAtlas.Lookup

/-!
# Reading nodes

A node is registered under every URI it answers to before its keywords are read, so a
reference to a node that is still being read finds its number. All other references are
followed at once: in the document being read, in the one that the load began with, and in
the document that the reference names. Following a reference reads the node that it names,
and chains of references are shortened to their end.

The functions take the function that reads a nested node as a parameter; `loadNode` ties
the knot for a number of nested nodes.
-/

namespace SchemaAtlas

namespace Loading

open LoadM

/-- How a node is read at a location, after a number of references in a row. -/
abbrev NodeLoader := Location → Json → Nat → LoadM (Option Schema)

/-- The reference to a node; one to a reference takes over its target. -/
def referenceTo (written : String) (uri : Uri) (target : Schema) : Reference :=
  match target.reference? with
  | some inner => { written, uri, target := inner.target }
  | none => { written, uri, target := .node target.id }

/-! ## Following references -/

/-- Reads the node that a URI names in a document, if there is one. -/
def buildTarget (load : NodeLoader) (document : OpenDocument) (uri : Uri) (hops : Nat) :
    LoadM (Option Schema) :=
  let root := Location.ofDocument document.uri
  match Lookup.locate document.active.idKeys root document.document uri with
  | some (location, value) =>
    between (Session.push document) Session.pop (load location value (hops + 1))
  | none => pure none

/-- Reads the node that a URI names in the first of some documents that has it. -/
def buildInFirst (load : NodeLoader) (uri : Uri) (hops : Nat) :
    List OpenDocument → LoadM (Option Schema)
  | [] => pure none
  | document :: rest => do
    match ← buildTarget load document uri hops with
    | some schema => return some schema
    | none => buildInFirst load uri hops rest

/-- A document by its URI: one that is open, or loaded, or available. -/
def obtain (location : Location) (uri : Uri) : LoadM Json := do
  let s ← get
  match ((Entries.get? uri s.opened).map OpenDocument.document).or (s.documents.loaded? uri) with
  | some document => return document
  | none =>
    match s.documents.fetch? uri with
    | some (document, documents) =>
      set { s with documents }
      return document
    | none => fatal .documentNotFound location s!"Document not found: {uri.withoutFragment}"

/-- Reads the node that a URI names, wherever it is. -/
def chase (load : NodeLoader) (location : Location) (uri : Uri) (hops : Nat) : LoadM Schema := do
  let nearby := (← get).nearby
  match ← buildInFirst load uri hops nearby with
  | some schema => return schema
  | none =>
    let documentUri := uri.withoutFragment
    if nearby.any (·.uri = documentUri) then
      fatal .unresolvedReference location s!"{uri} does not exist"
    else
      let document ← obtain location documentUri
      let opened ← modifyGet (Session.openDocument documentUri document)
      match ← buildTarget load opened uri hops with
      | some schema => return schema
      | none => fatal .unresolvedReference location s!"{uri} does not exist"

/-- The target of a reference: a finished node, one that is being read, or one to be read
now, unless the reference is one too many in a row or is being followed already. -/
def resolve (load : NodeLoader) (location : Location) (written : String) (uri : Uri)
    (hops : Nat) : LoadM Reference := do
  let s ← get
  match (Entries.get? uri s.built).or (s.cache.get? uri), Entries.get? uri s.inProgress with
  | some target, _ => return referenceTo written uri target
  | none, some id => return { written, uri, target := .node id }
  | none, none =>
    if s.policy.maxHops ≤ hops then
      fatal .referenceHopLimit location
        s!"more than {s.policy.maxHops} chained references reaching {uri}"
    else if s.resolving.contains uri then
      fatal .referenceCycle location s!"reference chain through {uri} never reaches a schema"
    else
      let target ← between (Session.beginResolving uri) (Session.endResolving uri)
        (chase load location uri hops)
      modify (Session.finish target [uri])
      return referenceTo written uri target

/-! ## Nodes -/

/-- Reads a reference. -/
def loadReference (load : NodeLoader) (draft : Draft) (location : Location) (written : String)
    (hops : Nat) : LoadM Schema :=
  match location.resolve written with
  | .error fault =>
    fatal .malformedReference (location.child "$ref")
      s!"'{written}' is not a valid URI reference: {fault.message}"
  | .ok uri => do
    let reference ← resolve load location written uri hops
    onStore fun store => store.add location draft (.reference reference)

/-- Applies the identifier of an object: its location in the new scope, and the URI that it
gives the node, unless another node has it. -/
def identify (location : Location) (id : String) : LoadM (Location × List Uri) :=
  match location.withId id with
  | .ok inner => do
    if (← get).knows inner.uri then
      issue .warning .invalidIdentifier location s!"identifier '{id}' is already declared"
      return (inner, [])
    else return (inner, [inner.uri])
  | .error fault => do
    malformed .invalidIdentifier location s!"identifier '{id}' cannot be resolved: {fault.message}"
    return (location, [])

/-- Reads an object that is no reference. -/
def loadObject (load : NodeLoader) (context : OpenDocument) (location : Location)
    (object : List (String × Json)) : LoadM Schema := do
  let (inner, declared) ← match Lookup.declaredId? context.active.idKeys (.object object) with
    | some id => identify location id
    | none => pure (location, [])
  let uris := location.pointerUri :: location.uri :: declared
  let id ← onStore Store.reserve
  let builder ← between (Session.register id uris) (Session.release id uris)
    (Digest.members (fun location value => load location value 0) context.active object object
      (.new inner context.draft))
  let schema := Schema.node id inner context.draft builder.body
  onStore fun store => ((), store.complete schema)
  modify (Session.finish schema uris)
  return schema

/-- Reads a node, given the function that reads the nodes inside. -/
def loadWith (load : NodeLoader) (location : Location) (value : Json) (hops : Nat) :
    LoadM (Option Schema) := do
  match (← get).current? with
  | none => return none
  | some context =>
    match value with
    | .object object =>
      match Entries.get? location.pointerUri (← get).built, Entries.get? "$ref" object with
      | some schema, _ => return some schema
      | none, some (.string written) =>
        return some (← loadReference load context.draft location written hops)
      | none, some other =>
        fatal .malformedReference (location.child "$ref") s!"$ref must be a string, found {other}"
      | none, none => return some (← loadObject load context location object)
    | .bool b =>
      if context.active.drafts.any Draft.allowsBooleanSchemas then
        return some (← onStore fun store => store.add location context.draft (.boolean b))
      else
        malformed .typeMismatch location "boolean schemas require draft 6 or later"
        return none
    | other =>
      malformed .typeMismatch location s!"expected a schema, found {Shape.of other}"
      return none

/-- Reads a node with at most `steps` nodes nested in each other, itself included. -/
def loadNode (steps : Nat) (location : Location) (value : Json) (hops : Nat) :
    LoadM (Option Schema) :=
  match steps with
  | 0 => throw .exhausted
  | steps + 1 => loadWith (loadNode steps) location value hops

end Loading
end SchemaAtlas
