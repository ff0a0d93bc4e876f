import SchemaAtlas.Cache
import SchemaAtlas.Json.Writer
import SchemaAtlas.Policy

/-!
# Schemas in full

A text on one line that shows everything a schema holds, for people who look for a fault.
Lists stand between brackets, maps and sets between braces, and the form of a value stands
before it.
-/

namespace SchemaAtlas

namespace Debug

def bracketed (items : List String) : String := "[" ++ ", ".intercalate items ++ "]"

def braced (items : List String) : String := "\x7b" ++ ", ".intercalate items ++ "\x7d"

/-- A form with its content. -/
def tagged (form content : String) : String := form ++ "(" ++ content ++ ")"

/-- A form with named fields. -/
def record (form : String) (fields : List (String × String)) : String :=
  form ++ " \x7b " ++ ", ".intercalate (fields.map fun (name, text) => name ++ ": " ++ text) ++
    " \x7d"

def entry (name text : String) : String := quoted name ++ ": " ++ text

def capital (name : String) : String :=
  match name.toList with
  | c :: rest => String.ofList (c.toUpper :: rest)
  | [] => ""

def draft (d : Draft) : String := capital d.name

def number (n : Number) : String := tagged "Number" n.text

def option (text : Option String) : String :=
  match text with
  | some text => tagged "Some" text
  | none => "None"

mutual

def json : Json → String
  | .null => "Null"
  | .bool b => tagged "Bool" (toString b)
  | .number n => number n
  | .string s => tagged "String" (quoted s)
  | .array elements => "Array " ++ bracketed (jsonElements elements)
  | .object members => "Object " ++ braced (jsonMembers members)

def jsonElements : List Json → List String
  | [] => []
  | v :: rest => json v :: jsonElements rest

def jsonMembers : List (String × Json) → List String
  | [] => []
  | (name, v) :: rest => entry name (json v) :: jsonMembers rest

end

def shapes (set : List Shape) : String := braced (set.map fun t => capital t.name)

def dependency : Dependency String → String
  | .schema text => tagged "Schema" text
  | .properties names => tagged "Properties" (quotedList "\x7b" "\x7d" names)

/-- A keyword, from the texts of its schemas. -/
def keyword : Keyword String → String
  | .schema text => tagged "Schema" text
  | .schemaList texts => tagged "SchemaList" (bracketed texts)
  | .schemaMap entries => tagged "SchemaMap" (braced (entries.map fun (name, text) => entry name text))
  | .items text => tagged "Items" (tagged "Single" text)
  | .tuple texts => tagged "Items" (tagged "Tuple" (bracketed texts))
  | .dependencies entries =>
    tagged "Dependencies" (braced (entries.map fun (name, d) => entry name (dependency d)))
  | .string text => tagged "String" (quoted text)
  | .uri text => tagged "Uri" (quoted text)
  | .number n => tagged "Number" (number n)
  | .count n => tagged "Integer" (toString n)
  | .boolean b => tagged "Boolean" (toString b)
  | .names set => tagged "StringSet" (quotedList "\x7b" "\x7d" set)
  | .types set => tagged "Types" (shapes set)
  | .union types texts => record "Union" [("types", shapes types), ("schemas", bracketed texts)]
  | .limit l => tagged "Limit" (record "Limit"
      [("inclusive", option (l.inclusive.map number)), ("exclusive", option (l.exclusive.map number))])
  | .json v => tagged "Json" (json v)
  | .jsonList vs => tagged "JsonList" (bracketed (jsonElements vs))

end Debug

def Schema.debugText (s : Schema) : String :=
  Schema.descend (fun node body =>
    match body.map Prod.snd with
    | .object keywords extra =>
      let fields := [("uri", quoted node.uri.text), ("version", Debug.draft node.draft),
        ("keywords", Debug.braced (keywords.map fun (kind, k) => kind.name ++ ": " ++ Debug.keyword k))]
      Debug.record "Schema"
        (if extra.isEmpty then fields
         else fields ++ [("extra", Debug.braced (Debug.jsonMembers extra))])
    | .boolean value => Debug.tagged "Schema" (toString value)
    | .reference r => Debug.tagged "Schema" s!"$ref {r.uri}") s

/-- The text of a handle that does not keep the node. -/
def Schema.handleText (s : Schema) : String := Debug.tagged "WeakSchema" s.uri.text

def Reference.debugText (r : Reference) : String :=
  Debug.record "RefSchema" [("reference", quoted r.written), ("ref_uri", quoted r.uri.text)]

def Policy.debugText (p : Policy) : String :=
  Debug.record "LoaderConfig" [("strict", toString p.strict),
    ("default_version", Debug.draft p.defaultDraft), ("versions", p.drafts.debugText),
    ("max_ref_hops", toString p.maxHops)]

def Cache.debugText (c : Cache) : String :=
  Debug.record "SchemaCache" [("entries", toString c.size)]

/-- The text of a policy with the cache that it is used with. -/
def Policy.loaderText (p : Policy) (c : Cache) : String :=
  Debug.record "SchemaLoader" [("config", p.debugText), ("cache", c.debugText)]

end SchemaAtlas
