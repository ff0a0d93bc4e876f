import SchemaAtlas.Keyword.Catalog
import SchemaAtlas.Schema.Basic

/-!
# Rendering a schema in a draft

A schema is kept once and written for any draft: keywords that the draft lacks are left
out, keys take the draft's spelling, and keywords whose form changed take the draft's form.
A reference is written alone, as it was read.
-/

namespace SchemaAtlas

namespace Limit

/-- Whether the exclusive bound is at least as tight as the inclusive one. -/
def exclusiveWins (lower : Bool) (l : Limit) : Bool :=
  match l.inclusive, l.exclusive with
  | _, none => false
  | none, some _ => true
  | some i, some e =>
    if lower then i.toBinary64.le e.toBinary64 else e.toBinary64.le i.toBinary64

/-- The members that write a bound. Drafts with flags hold one bound, the tighter one, and
a flag for the exclusive form; the others hold both as numbers. -/
def members (bound exclusiveKey : String) (lower : Bool) (draft : Draft) (l : Limit) :
    List (String × Json) :=
  if draft.hasFlaggedLimits then
    if l.exclusiveWins lower then
      match l.exclusive with
      | some n => [(bound, .number n), (exclusiveKey, .bool true)]
      | none => []
    else
      match l.inclusive with
      | some n => [(bound, .number n)]
      | none => []
  else
    (l.inclusive.toList.map fun n => (bound, .number n)) ++
      (l.exclusive.toList.map fun n => (exclusiveKey, .number n))

end Limit

namespace Schema

/-- A boolean schema; drafts without them say the same with a negation. -/
def renderBoolean (draft : Draft) (value : Bool) : Json :=
  if draft.allowsBooleanSchemas then .bool value
  else if value then .object []
  else if draft = .draft3 then .object [("disallow", .strings ["any"])]
  else .object [("not", .object [])]

/-- One name alone, several as an array; `any` is a name in the third draft only. -/
def renderTypes (draft : Draft) (types : List Shape) : Option Json :=
  match (types.filter fun t => t ≠ .any || draft = .draft3).map fun t => Json.string t.name with
  | [] => none
  | [name] => some name
  | names => some (.array names)

/-- A keyword in the form that does not depend on its kind, from rendered schemas. -/
def renderValue (draft : Draft) : Keyword (Schema × Json) → Json
  | .schema (_, json) | .items (_, json) => json
  | .schemaList list | .tuple list => .array (list.map Prod.snd)
  | .schemaMap entries => .object (Entries.mapValues Prod.snd entries)
  | .dependencies entries => .object (entries.map fun
    | (name, .schema (_, json)) => (name, json)
    | (name, .properties names) => (name, .strings names))
  | .string text | .uri text => .string text
  | .number n => .number n
  | .count n => .ofNat n
  | .boolean b => .bool b
  | .names set => .strings set
  | .types types => (renderTypes draft types).getD .null
  | .union types schemas =>
    .array (types.map (fun t => Json.string t.name) ++ schemas.map Prod.snd)
  | .limit l => .ofOption .number (l.inclusive.or l.exclusive)
  | .json v => v
  | .jsonList vs => .array vs

/-- The key of a kind in a draft. -/
def keyIn (draft : Draft) (kind : KeywordKind) : String :=
  match kind with
  | .id => draft.idKey
  | .multipleOf => if draft = .draft3 then "divisibleBy" else kind.key
  | _ => kind.key

/-- The members that write a keyword in a draft that knows its kind. -/
def keywordMembers (draft : Draft) (kind : KeywordKind) (keyword : Keyword (Schema × Json)) :
    List (String × Json) :=
  let key := keyIn draft kind
  match kind, keyword with
  | .schema, _ => [(key, .string draft.metaSchema)]
  | .minimum, .limit l => l.members "minimum" "exclusiveMinimum" true draft
  | .maximum, .limit l => l.members "maximum" "exclusiveMaximum" false draft
  | .minimum, _ | .maximum, _ => []
  | .additionalProperties, .schema (s, json) | .additionalItems, .schema (s, json) =>
    [(key, (s.boolean?.map Json.bool).getD json)]
  | .required, .names [] => []
  | .type, .types types => (renderTypes draft types).toList.map fun json => (key, json)
  | _, .union types schemas =>
    if draft = .draft3 then [(key, renderValue draft (.union types schemas))]
    else (renderTypes draft types).toList.map fun json => (key, json)
  | _, keyword => [(key, renderValue draft keyword)]

/-- The members that write a keyword in any draft. A constant is an enumeration of one
value where no constants are known. -/
def membersIn (draft : Draft) (hasEnum : Bool) (kind : KeywordKind)
    (keyword : Keyword (Schema × Json)) : List (String × Json) :=
  if kind = .const ∧ draft < .draft6 then
    match keyword with
    | .json v => if hasEnum then [] else [("enum", .array [v])]
    | _ => []
  else if (Catalog.draftsOf kind).contains draft then keywordMembers draft kind keyword
  else []

/-- Puts members in, replacing those with the same key. -/
def putAll (members object : List (String × Json)) : List (String × Json) :=
  members.foldl (fun object m => Entries.insert m.1 m.2 object) object

/-- Puts in the members whose key is not taken. -/
def putMissing (members object : List (String × Json)) : List (String × Json) :=
  members.foldl
    (fun object m => if Entries.contains m.1 object then object else Entries.insert m.1 m.2 object)
    object

/-- A node, from its body with rendered schemas. -/
def renderBody (draft : Draft) (withExtra : Bool) : Body (Schema × Json) → Json
  | .reference r => .object [("$ref", .string r.written)]
  | .boolean value => renderBoolean draft value
  | .object keywords extra =>
    let hasEnum := Entries.contains KeywordKind.enum keywords
    let object := keywords.foldl
      (fun object (kind, keyword) => putAll (membersIn draft hasEnum kind keyword) object) []
    .object (if withExtra then putMissing extra object else object)

/-- The schema as a document of a draft, with or without the members that are no keywords. -/
def render (draft : Draft) (withExtra : Bool) (s : Schema) : Json :=
  descend (fun _ body => renderBody draft withExtra body) s

/-! ## Views -/

/-- The keyword that a key names in a draft. -/
def keywordIn? (s : Schema) (draft : Draft) (key : String) : Option (Keyword Schema) :=
  ((Catalog.candidates key).filter (·.appliesTo draft)).findSome? fun entry =>
    s.keyword? entry.kind

/-- The keys that a draft writes for the schema, in order. -/
def keysIn (s : Schema) (draft : Draft) : List String :=
  match s.render draft false with
  | .object members => Entries.keys members
  | _ => []

end Schema
end SchemaAtlas
