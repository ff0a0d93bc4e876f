import SchemaAtlas.Schema.Store

/-!
# Outlines of schemas

A JSON value that shows how a schema is built rather than what it says: where each node is,
the form of every keyword, and what references lead to. Nested schemas have outlines of
their own; the target of a reference is shown in brief, so an outline is as finite as its
schema.
-/

namespace SchemaAtlas

def Location.outline (l : Location) : List (String × Json) :=
  [("unique", .string l.uri.text), ("document", .string l.document.text),
    ("scope", .string l.scope.text), ("path", .string l.path.text)]

def Limit.outline (l : Limit) : Json :=
  .ofMembers [("inclusive", .ofOption .number l.inclusive),
    ("exclusive", .ofOption .number l.exclusive), ("empty", .bool l.isEmpty)]

def Dependency.outline : Dependency Json → Json
  | .schema s => .ofMembers [("schema", s)]
  | .properties names => .ofMembers [("properties", .strings names)]

namespace Keyword

def shapesOutline (shapes : List Shape) : Json := .strings (shapes.map Shape.name)

/-- The name of a keyword's form. -/
def form {σ : Type} : Keyword σ → String
  | .schema _ => "Schema"
  | .schemaList _ => "SchemaList"
  | .schemaMap _ => "SchemaMap"
  | .items _ => "ItemsSingle"
  | .tuple _ => "ItemsTuple"
  | .dependencies _ => "Dependencies"
  | .string _ => "String"
  | .uri _ => "Uri"
  | .number _ => "Number"
  | .count _ => "Integer"
  | .boolean _ => "Boolean"
  | .names _ => "StringSet"
  | .types _ => "Types"
  | .union _ _ => "Union"
  | .limit _ => "Limit"
  | .json _ => "Json"
  | .jsonList _ => "JsonList"

def content : Keyword Json → Json
  | .schema s | .items s => s
  | .schemaList list | .tuple list => .array list
  | .schemaMap entries => .ofMembers entries
  | .dependencies entries => .ofMembers (Entries.mapValues Dependency.outline entries)
  | .string text | .uri text => .string text
  | .number n => .number n
  | .count n => .ofNat n
  | .boolean b => .bool b
  | .names set => .strings set
  | .types shapes => shapesOutline shapes
  | .union shapes list =>
    .ofMembers [("types", shapesOutline shapes), ("schemas", .array list)]
  | .limit l => l.outline
  | .json v => v
  | .jsonList vs => .array vs

/-- The form of a keyword and its content, from the outlines of its schemas. -/
def outline (k : Keyword Json) : Json := .ofMembers [(k.form, k.content)]

end Keyword

namespace Schema

/-- Where a node is and what it is. -/
def brief (s : Schema) : Json :=
  .ofMembers [("unique", .string s.uri.text), ("document", .string s.location.document.text),
    ("path", .string s.location.path.text), ("draft", .string s.draft.name),
    ("ref", .bool s.isReference)]

/-- What a body shows beside the place of its node. -/
def bodyOutline : Body (Schema × StateM Store Json) → StateM Store (List (String × Json))
  | .boolean value => return [("boolean", .bool value)]
  | .reference r =>
    return [("ref", .string r.written), ("ref_uri", .string r.uri.text),
      ("target", .ofOption brief (← Store.target r))]
  | .object keywords extra => do
    let shown ← keywords.mapM fun (kind, k) =>
      return (kind.name, (← k.mapM fun (_, outline) => outline).outline)
    return ("keywords", .ofMembers shown) ::
      (if extra.isEmpty then [] else [("extra", .object extra)])

/-- The outline of a schema. A deferred reference is asked for its target. -/
def outline : Schema → StateM Store Json :=
  descend fun s body =>
    return .ofMembers (s.location.outline ++ ("draft", .string s.draft.name) :: (← bodyOutline body))

end Schema
end SchemaAtlas
