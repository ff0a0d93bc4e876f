import SchemaAtlas.Draft
import SchemaAtlas.Json.Shape
import SchemaAtlas.Keyword.Kind

/-!
# The keyword catalog

One entry for every key and every shape that the key accepts, with the drafts in which it
does. The entries of a key are its candidates; a value is read by the candidates of the
drafts in use, the newest first.
-/

namespace SchemaAtlas

/-- How the value of a keyword is read. -/
inductive Reading where
  | schema
  | schemaList
  | schemaMap
  | items
  | dependencies
  | string
  | pattern
  | uri
  | positiveNumber
  | nonNegativeInteger
  | boolean
  | stringSet
  | types
  /-- A bound, or its exclusive form as a number. -/
  | limitValue
  /-- A flag that makes the bound beside it exclusive. -/
  | limitFlag
  | json
  | jsonList
  deriving DecidableEq, Repr, Inhabited

def Reading.name : Reading → String
  | .schema => "Schema"
  | .schemaList => "SchemaList"
  | .schemaMap => "SchemaMap"
  | .items => "Items"
  | .dependencies => "Dependencies"
  | .string => "String"
  | .pattern => "Pattern"
  | .uri => "Uri"
  | .positiveNumber => "PositiveNumber"
  | .nonNegativeInteger => "NonNegativeInteger"
  | .boolean => "Boolean"
  | .stringSet => "StringSet"
  | .types => "Types"
  | .limitValue => "LimitValue"
  | .limitFlag => "LimitFlag"
  | .json => "Json"
  | .jsonList => "JsonList"

/-- One key with one shape it accepts. -/
structure CatalogEntry where
  key : String
  kind : KeywordKind
  expects : Shape
  drafts : DraftSet
  reading : Reading
  deriving DecidableEq, Repr, Inhabited

namespace Catalog

def every : DraftSet := .all

def d3 : DraftSet := .only .draft3

def d3to5 : DraftSet := .range .draft3 .draft5

def since4 : DraftSet := .since .draft4

def since6 : DraftSet := .since .draft6

def d7 : DraftSet := .only .draft7

/-- The catalog in the order of the families of keywords. -/
def entries : List CatalogEntry :=
  [ ⟨"$schema", .schema, .string, every, .uri⟩,
    ⟨"id", .id, .string, d3to5, .uri⟩,
    ⟨"$id", .id, .string, since6, .uri⟩,
    ⟨"$comment", .comment, .string, d7, .string⟩,
    ⟨"definitions", .definitions, .object, every, .schemaMap⟩,
    ⟨"title", .title, .string, every, .string⟩,
    ⟨"description", .description, .string, every, .string⟩,
    ⟨"default", .default, .any, every, .json⟩,
    ⟨"examples", .examples, .array, since6, .jsonList⟩,
    ⟨"readOnly", .readOnly, .boolean, d7, .boolean⟩,
    ⟨"writeOnly", .writeOnly, .boolean, d7, .boolean⟩,
    ⟨"format", .format, .string, every, .string⟩,
    ⟨"pattern", .pattern, .string, every, .pattern⟩,
    ⟨"minLength", .minLength, .integer, every, .nonNegativeInteger⟩,
    ⟨"maxLength", .maxLength, .integer, every, .nonNegativeInteger⟩,
    ⟨"contentEncoding", .contentEncoding, .string, d7, .string⟩,
    ⟨"contentMediaType", .contentMediaType, .string, d7, .string⟩,
    ⟨"multipleOf", .multipleOf, .number, since4, .positiveNumber⟩,
    ⟨"divisibleBy", .multipleOf, .number, d3, .positiveNumber⟩,
    ⟨"minimum", .minimum, .number, every, .limitValue⟩,
    ⟨"maximum", .maximum, .number, every, .limitValue⟩,
    ⟨"exclusiveMinimum", .minimum, .boolean, d3to5, .limitFlag⟩,
    ⟨"exclusiveMinimum", .minimum, .number, since6, .limitValue⟩,
    ⟨"exclusiveMaximum", .maximum, .boolean, d3to5, .limitFlag⟩,
    ⟨"exclusiveMaximum", .maximum, .number, since6, .limitValue⟩,
    ⟨"items", .items, .object, every, .items⟩,
    ⟨"items", .items, .array, every, .items⟩,
    ⟨"items", .items, .boolean, since6, .items⟩,
    ⟨"additionalItems", .additionalItems, .object, every, .schema⟩,
    ⟨"additionalItems", .additionalItems, .boolean, every, .schema⟩,
    ⟨"minItems", .minItems, .integer, every, .nonNegativeInteger⟩,
    ⟨"maxItems", .maxItems, .integer, every, .nonNegativeInteger⟩,
    ⟨"uniqueItems", .uniqueItems, .boolean, every, .boolean⟩,
    ⟨"properties", .properties, .object, every, .schemaMap⟩,
    ⟨"patternProperties", .patternProperties, .object, every, .schemaMap⟩,
    ⟨"additionalProperties", .additionalProperties, .object, every, .schema⟩,
    ⟨"additionalProperties", .additionalProperties, .boolean, every, .schema⟩,
    ⟨"required", .required, .array, since4, .stringSet⟩,
    ⟨"required", .requiredFlag, .boolean, d3, .boolean⟩,
    ⟨"minProperties", .minProperties, .integer, since4, .nonNegativeInteger⟩,
    ⟨"maxProperties", .maxProperties, .integer, since4, .nonNegativeInteger⟩,
    ⟨"dependencies", .dependencies, .object, every, .dependencies⟩,
    ⟨"type", .type, .string, every, .types⟩,
    ⟨"type", .type, .array, every, .types⟩,
    ⟨"disallow", .disallow, .string, d3, .types⟩,
    ⟨"disallow", .disallow, .array, d3, .types⟩,
    ⟨"enum", .enum, .array, every, .jsonList⟩,
    ⟨"const", .const, .any, since6, .json⟩,
    ⟨"allOf", .allOf, .array, since4, .schemaList⟩,
    ⟨"anyOf", .anyOf, .array, since4, .schemaList⟩,
    ⟨"oneOf", .oneOf, .array, since4, .schemaList⟩,
    ⟨"not", .not, .object, since4, .schema⟩,
    ⟨"not", .not, .boolean, since6, .schema⟩,
    ⟨"extends", .extends, .object, d3, .schemaList⟩,
    ⟨"extends", .extends, .array, d3, .schemaList⟩,
    ⟨"contains", .contains, .object, since6, .schema⟩,
    ⟨"contains", .contains, .boolean, since6, .schema⟩,
    ⟨"propertyNames", .propertyNames, .object, since6, .schema⟩,
    ⟨"propertyNames", .propertyNames, .boolean, since6, .schema⟩,
    ⟨"if", .if, .object, d7, .schema⟩,
    ⟨"if", .if, .boolean, d7, .schema⟩,
    ⟨"then", .then, .object, d7, .schema⟩,
    ⟨"then", .then, .boolean, d7, .schema⟩,
    ⟨"else", .else, .object, d7, .schema⟩,
    ⟨"else", .else, .boolean, d7, .schema⟩ ]

/-- Puts an entry behind those whose newest draft is at least as new. -/
def insertByDraft (entry : CatalogEntry) : List CatalogEntry → List CatalogEntry
  | [] => [entry]
  | other :: rest =>
    let newest (e : CatalogEntry) : Nat := (e.drafts.latest?.map Draft.number).getD 0
    if newest other < newest entry then entry :: other :: rest
    else other :: insertByDraft entry rest

/-- The entries of a key, the newest draft first, equally new ones in catalog order. -/
def candidates (key : String) : List CatalogEntry :=
  (entries.filter (·.key = key)).foldl (fun sorted entry => insertByDraft entry sorted) []

def isKeyword (key : String) : Bool := entries.any (·.key = key)

/-- The drafts in which some key of the kind is known. -/
def draftsOf (kind : KeywordKind) : DraftSet :=
  (entries.filter (·.kind = kind)).foldl (fun drafts entry => drafts.union entry.drafts) .empty

/-- The candidates of a key in the drafts in use. -/
def applicable (key : String) (active : DraftSet) : List CatalogEntry :=
  (candidates key).filter (·.drafts.intersects active)

def keys : List String := Members.ofList (entries.map (·.key))

end Catalog

namespace CatalogEntry

/-- The candidate of the same key that accepts a shape. -/
def variantFor? (entry : CatalogEntry) (shape : Shape) : Option CatalogEntry :=
  (Catalog.candidates entry.key).find? (·.expects.accepts shape)

def appliesTo (entry : CatalogEntry) (draft : Draft) : Bool := entry.drafts.contains draft

/-- Entries are told apart by key and shape. -/
def same (a b : CatalogEntry) : Bool := a.key = b.key && a.expects = b.expects

end CatalogEntry
end SchemaAtlas
