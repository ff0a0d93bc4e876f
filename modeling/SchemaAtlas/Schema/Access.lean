import SchemaAtlas.Schema.Basic

/-!
# What a schema says

The content of a node by the names that people know it under. A keyword that is missing or
was read in another form gives nothing.
-/

namespace SchemaAtlas.Schema

variable (s : Schema)

def text? (kind : KeywordKind) : Option String := (s.keyword? kind).bind Keyword.text?

def count? (kind : KeywordKind) : Option Nat := (s.keyword? kind).bind Keyword.count?

def limit? (kind : KeywordKind) : Option Limit := (s.keyword? kind).bind Keyword.limit?

def schema? (kind : KeywordKind) : Option Schema := (s.keyword? kind).bind Keyword.schema?

def schemaList? (kind : KeywordKind) : Option (List Schema) :=
  (s.keyword? kind).bind Keyword.schemaList?

def schemaMap? (kind : KeywordKind) : Option (List (String × Schema)) :=
  (s.keyword? kind).bind Keyword.schemaMap?

def identifier? : Option String := s.text? .id

def types? : Option (List Shape) :=
  match s.keyword? .type with
  | some (.types types) | some (.union types _) => some types
  | _ => none

/-- The schemas beside the names of types. -/
def typeSchemas : List Schema :=
  match s.keyword? .type with
  | some (.union _ schemas) => schemas
  | _ => []

def properties? : Option (List (String × Schema)) := s.schemaMap? .properties

def property? (name : String) : Option Schema := s.properties?.bind (Entries.get? name)

def definitions? : Option (List (String × Schema)) := s.schemaMap? .definitions

def definition? (name : String) : Option Schema := s.definitions?.bind (Entries.get? name)

def required? : Option (List String) :=
  match s.keyword? .required with
  | some (.names set) => some set
  | _ => none

def dependencies? : Option (List (String × Dependency Schema)) :=
  match s.keyword? .dependencies with
  | some (.dependencies entries) => some entries
  | _ => none

/-- The allowed values. -/
def values? : Option (List Json) :=
  match s.keyword? .enum with
  | some (.jsonList values) => some values
  | _ => none

/-- The only allowed value. -/
def constant? : Option Json :=
  match s.keyword? .const with
  | some (.json value) => some value
  | _ => none

def extra? (key : String) : Option Json := Entries.get? key s.extra

/-- The schema below a keyword under a segment, or directly below it. -/
def below? (kind : KeywordKind) (segment : Option String) : Option Schema :=
  ((s.keyword? kind).map Keyword.subschemas).bind fun list =>
    (list.find? (·.1 = segment)).map Prod.snd

end SchemaAtlas.Schema
