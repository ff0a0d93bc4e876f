/-!
# Keyword kinds

A kind is the logical identity of a keyword. Several keys may share one: the two spellings
of identifiers, of `multipleOf`, and the bounds with their exclusive forms. The order of the
kinds is that in which a schema lists its keywords.
-/

namespace SchemaAtlas

inductive KeywordKind where
  | schema
  | id
  | comment
  | definitions
  | title
  | description
  | default
  | examples
  | readOnly
  | writeOnly
  | format
  | pattern
  | minLength
  | maxLength
  | contentEncoding
  | contentMediaType
  | multipleOf
  | minimum
  | maximum
  | items
  | additionalItems
  | minItems
  | maxItems
  | uniqueItems
  | contains
  | properties
  | patternProperties
  | additionalProperties
  | required
  | requiredFlag
  | minProperties
  | maxProperties
  | propertyNames
  | dependencies
  | type
  | disallow
  | enum
  | const
  | allOf
  | anyOf
  | oneOf
  | not
  | extends
  | if
  | then
  | else
  deriving DecidableEq, Repr, Inhabited

namespace KeywordKind

def all : List KeywordKind :=
  [.schema, .id, .comment, .definitions, .title, .description, .default, .examples, .readOnly,
    .writeOnly, .format, .pattern, .minLength, .maxLength, .contentEncoding, .contentMediaType,
    .multipleOf, .minimum, .maximum, .items, .additionalItems, .minItems, .maxItems,
    .uniqueItems, .contains, .properties, .patternProperties, .additionalProperties, .required,
    .requiredFlag, .minProperties, .maxProperties, .propertyNames, .dependencies, .type,
    .disallow, .enum, .const, .allOf, .anyOf, .oneOf, .not, .extends, .if, .then, .else]

def rank (k : KeywordKind) : Nat := k.ctorIdx

instance : LT KeywordKind := ⟨fun a b => a.rank < b.rank⟩

instance : DecidableLT KeywordKind := fun a b => inferInstanceAs (Decidable (a.rank < b.rank))

/-- The key of the kind in paths and reports, the newest of its spellings. -/
def key : KeywordKind → String
  | .schema => "$schema"
  | .id => "$id"
  | .comment => "$comment"
  | .definitions => "definitions"
  | .title => "title"
  | .description => "description"
  | .default => "default"
  | .examples => "examples"
  | .readOnly => "readOnly"
  | .writeOnly => "writeOnly"
  | .format => "format"
  | .pattern => "pattern"
  | .minLength => "minLength"
  | .maxLength => "maxLength"
  | .contentEncoding => "contentEncoding"
  | .contentMediaType => "contentMediaType"
  | .multipleOf => "multipleOf"
  | .minimum => "minimum"
  | .maximum => "maximum"
  | .items => "items"
  | .additionalItems => "additionalItems"
  | .minItems => "minItems"
  | .maxItems => "maxItems"
  | .uniqueItems => "uniqueItems"
  | .contains => "contains"
  | .properties => "properties"
  | .patternProperties => "patternProperties"
  | .additionalProperties => "additionalProperties"
  | .required => "required"
  | .requiredFlag => "required"
  | .minProperties => "minProperties"
  | .maxProperties => "maxProperties"
  | .propertyNames => "propertyNames"
  | .dependencies => "dependencies"
  | .type => "type"
  | .disallow => "disallow"
  | .enum => "enum"
  | .const => "const"
  | .allOf => "allOf"
  | .anyOf => "anyOf"
  | .oneOf => "oneOf"
  | .not => "not"
  | .extends => "extends"
  | .if => "if"
  | .then => "then"
  | .else => "else"

/-- The name of the kind in reports of a schema's content. -/
def name : KeywordKind → String
  | .schema => "Schema"
  | .id => "Id"
  | .comment => "Comment"
  | .requiredFlag => "RequiredFlag"
  | k =>
    match k.key.toList with
    | c :: rest => String.ofList (c.toUpper :: rest)
    | [] => ""

def ofName? (name : String) : Option KeywordKind := all.find? (·.name = name)

/-- Identifiers take no part in a merge. -/
def isIdentity (k : KeywordKind) : Bool := k = .id

end KeywordKind
end SchemaAtlas
