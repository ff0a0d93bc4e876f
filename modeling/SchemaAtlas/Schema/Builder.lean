import SchemaAtlas.Schema.Store

/-!
# Building nodes

A builder gathers the content of a node. A reference displaces all other content, and a
builder that started from a boolean schema gives one back only while nothing was added.
-/

namespace SchemaAtlas

structure Builder where
  location : Location
  draft : Draft
  keywords : List (KeywordKind × Keyword Schema)
  extra : List (String × Json)
  reference : Option Reference
  boolean : Option Bool
  deriving Inhabited

namespace Builder

def new (location : Location) (draft : Draft) : Builder :=
  { location, draft, keywords := [], extra := [], reference := none, boolean := none }

/-- A builder with the content of a schema. -/
def ofSchema (s : Schema) : Builder :=
  let b := new s.location s.draft
  match s.body with
  | .object keywords extra => { b with keywords, extra }
  | .boolean value => { b with boolean := some value }
  | .reference r => { b with reference := some r }

def keyword? (b : Builder) (kind : KeywordKind) : Option (Keyword Schema) :=
  Entries.get? kind b.keywords

/-- Puts a keyword in; the schema `true` becomes an object. -/
def put (b : Builder) (kind : KeywordKind) (keyword : Keyword Schema) : Builder :=
  { b with
    keywords := Entries.insert kind keyword b.keywords
    boolean := if b.boolean = some true then none else b.boolean }

def remove (b : Builder) (kind : KeywordKind) : Builder :=
  { b with keywords := Entries.erase kind b.keywords }

def putExtra (b : Builder) (key : String) (value : Json) : Builder :=
  { b with extra := Entries.insert key value b.extra }

def isReference (b : Builder) : Bool := b.reference.isSome

/-- The content of the node. -/
def body (b : Builder) : Body Schema :=
  match b.reference, b.boolean with
  | some r, _ => .reference r
  | none, some value =>
    if b.keywords.isEmpty && b.extra.isEmpty then .boolean value else .object b.keywords b.extra
  | none, none => .object b.keywords b.extra

/-- Adds the node to the store. -/
def build (b : Builder) (s : Store) : Schema × Store := s.add b.location b.draft b.body

@[simp] theorem ofSchema_body (s : Schema) : (ofSchema s).body = s.body := by
  obtain ⟨id, location, draft, body⟩ := s
  cases body <;> simp [ofSchema, Schema.body, Builder.body, new]

end Builder

namespace Schema

/-- A copy of the node with an identifier, in the scope that it starts. -/
def withId (schema : Schema) (id : String) (s : Store) : Except UriFault (Schema × Store) :=
  (schema.location.withId id).map fun location =>
    let b := { Builder.ofSchema schema with location }
    (if schema.isReference then b else b.put .id (.uri id)).build s

/-- A copy of the node as the root of another document; nested schemas stay where they are. -/
def withDocument (schema : Schema) (uri : String) (s : Store) :
    Except UriFault (Schema × Store) :=
  (schema.location.withDocument uri).map fun location =>
    { Builder.ofSchema schema with location }.build s

end Schema
end SchemaAtlas
