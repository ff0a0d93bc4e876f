import SchemaAtlas.Keyword.Catalog
import SchemaAtlas.Loading.Session
import SchemaAtlas.Pattern.Reader
import SchemaAtlas.Schema.Builder

/-!
# Reading the keywords of an object

The members of an object are read in key order. A key without a candidate in the drafts in
use is kept as it is, or reported by a strict policy. The candidates that accept the shape
of the value read it, the newest draft first, until one makes a keyword of it. Schemas
inside a value are loaded by the given function, which reports what is no schema.
-/

namespace SchemaAtlas

namespace Number

/-- The number as a count, if it is whole, not negative and at most 64 bits long. -/
def count? : Number → Option Nat
  | .integer i => if 0 ≤ i then some i.toNat else none
  | .float x =>
    if (Binary64.zero false).le x && x.isWhole && x.le (Binary64.ofNat (Nat.pow 2 64)) then
      some (min x.truncate.toNat (Nat.pow 2 64 - 1))
    else none

def isPositive (n : Number) : Bool := (Binary64.zero false).lt n.toBinary64

end Number

namespace Digest

open LoadM

/-- How a nested schema is loaded; no schema is given if the value is none. -/
abbrev Loader := Location → Json → LoadM (Option Schema)

/-- A value to be read as a keyword. -/
structure Site where
  entry : CatalogEntry
  value : Json
  /-- All members of the schema, for keywords that look at a sibling. -/
  object : List (String × Json)
  location : Location

/-! ## Schemas -/

/-- Loads all elements; nothing if one of them is no schema. -/
def schemas (load : Loader) (location : Location) (index : Nat) :
    List Json → LoadM (Option (List Schema))
  | [] => pure (some [])
  | value :: rest => do
    match ← load (location.childIndex index) value with
    | none => pure none
    | some schema => return (← schemas load location (index + 1) rest).map (schema :: ·)

/-- A list of schemas, or a single one in place of the list. -/
def schemaList (load : Loader) (site : Site) : LoadM (Option (Keyword Schema)) :=
  match site.value with
  | .array elements => return (← schemas load site.location 0 elements).map .schemaList
  | .object _ => return (← load site.location site.value).map fun s => .schemaList [s]
  | _ => pure none

def items (load : Loader) (site : Site) : LoadM (Option (Keyword Schema)) :=
  match site.value with
  | .array elements => return (← schemas load site.location 0 elements).map .tuple
  | _ => return (← load site.location site.value).map .items

/-- Reports a pattern that is not supported; it is kept nevertheless. -/
def checkPattern (location : Location) (pattern : String) : LoadM Unit :=
  if Pattern.isSupported pattern then pure ()
  else issue .warning .invalidPattern location s!"'{pattern}' is not a supported regular expression"

/-- Named schemas; entries that are no schemas are left out. -/
def schemaEntries (load : Loader) (site : Site) :
    List (String × Json) → LoadM (List (String × Schema))
  | [] => pure []
  | (name, value) :: rest => do
    if name.isEmpty then
      malformed .invalidValue site.location s!"'{site.entry.key}' has an entry with an empty name"
      schemaEntries load site rest
    else
      let location := site.location.child name
      if site.entry.kind = .patternProperties then checkPattern location name
      match ← load location value with
      | some schema => return (name, schema) :: (← schemaEntries load site rest)
      | none => schemaEntries load site rest

/-- The strings of an array; other elements are reported. -/
def names (location : Location) (index : Nat) : List Json → LoadM (List String)
  | [] => pure []
  | value :: rest => do
    match value with
    | .string name => return name :: (← names location (index + 1) rest)
    | other =>
      malformed .invalidValue (location.childIndex index) s!"expected a string, found {Shape.of other}"
      names location (index + 1) rest

/-- What one property depends on. -/
def dependency (load : Loader) (location : Location) (name : String) (value : Json) :
    LoadM (Option (Dependency Schema)) :=
  match value with
  | .array elements => return some (.properties (Members.ofList (← names location 0 elements)))
  | .string property => pure (some (.properties [property]))
  | .object _ | .bool _ => return (← load location value).map .schema
  | other => do
    malformed .typeMismatch location
      s!"dependency '{name}' must be a schema or property list, found {Shape.of other}"
    pure none

def dependencyEntries (load : Loader) (location : Location) :
    List (String × Json) → LoadM (List (String × Dependency Schema))
  | [] => pure []
  | (name, value) :: rest => do
    match ← dependency load (location.child name) name value with
    | some d => return (name, d) :: (← dependencyEntries load location rest)
    | none => dependencyEntries load location rest

/-- Names of types, and in the third draft schemas beside them. -/
def typeEntries (load : Loader) (thirdDraft : Bool) :
    List (Location × Json) → LoadM (List Shape × List Schema)
  | [] => pure ([], [])
  | (location, value) :: rest => do
    if thirdDraft && (Shape.of value = .object) then
      let schema ← load location value
      let (shapes, schemas) ← typeEntries load thirdDraft rest
      return (shapes, schema.toList ++ schemas)
    else
      match (value.string?.bind Shape.ofName?).filter fun t => t ≠ .any || thirdDraft with
      | some shape =>
        let (shapes, schemas) ← typeEntries load thirdDraft rest
        return (shape :: shapes, schemas)
      | none =>
        malformed .invalidValue location s!"{value} is not a type name"
        typeEntries load thirdDraft rest

def types (load : Loader) (active : DraftSet) (site : Site) : LoadM (Option (Keyword Schema)) := do
  let entries := match site.value with
    | .array elements => elements.zipIdx.map fun (value, i) => (site.location.childIndex i, value)
    | value => [(site.location, value)]
  let (shapes, schemas) ← typeEntries load (active.contains .draft3) entries
  let set := Members.ofList shapes
  return some (if schemas.isEmpty then .types set else .union set schemas)

/-! ## Plain values -/

def uriText (site : Site) (text : String) : LoadM (Keyword Schema) := do
  match site.location.resolve text with
  | .ok _ => pure ()
  | .error fault =>
    malformed (if site.entry.kind = .id then .invalidIdentifier else .invalidValue) site.location
      s!"'{text}' is not a valid URI reference: {fault.message}"
  return .uri text

def positiveNumber (site : Site) (n : Number) : LoadM (Option (Keyword Schema)) := do
  if n.isPositive then return some (.number n)
  else
    malformed .invalidValue site.location s!"'{site.entry.key}' must be greater than 0, found {n}"
    return none

def count (site : Site) (n : Number) : LoadM (Option (Keyword Schema)) := do
  match n.count? with
  | some k => return some (.count k)
  | none =>
    malformed .invalidValue site.location
      s!"'{site.entry.key}' must be a non-negative integer, found {n}"
    return none

/-! ## Bounds -/

/-- The key of the exclusive form of a bound. -/
def exclusiveKey : KeywordKind → String
  | .minimum => "exclusiveMinimum"
  | _ => "exclusiveMaximum"

/-- The key of the plain form of a bound. -/
def boundKey : KeywordKind → String
  | .minimum => "minimum"
  | _ => "maximum"

/-- The bound with a number put in. The number is exclusive under the exclusive key, and
under the plain key if a flag beside it says so, in drafts that have such flags. -/
def limitWith (active : DraftSet) (site : Site) (limit : Limit) (n : Number) : Limit :=
  let exclusive := exclusiveKey site.entry.kind
  let flagged := active.intersects (.range .draft3 .draft5) &&
    (Entries.get? exclusive site.object).bind Json.bool? = some true
  if site.entry.key = exclusive || flagged then { limit with exclusive := some n }
  else { limit with inclusive := some n }

/-- Reports a flag without a number beside it; the flag has no value of its own. -/
def limitFlag (site : Site) : LoadM Unit :=
  let bound := boundKey site.entry.kind
  if ((Entries.get? bound site.object).bind Json.number?).isSome then pure ()
  else
    malformed .invalidValue site.location
      s!"'{site.entry.key}' has no numeric '{bound}' to apply to"

/-! ## Objects -/

/-- The keyword that a candidate reads from a value, if it reads one. -/
def keyword (load : Loader) (active : DraftSet) (builder : Builder) (site : Site) :
    LoadM (Option (Keyword Schema)) :=
  match site.entry.reading, site.value with
  | .schema, .bool b => do
    if site.entry.expects = .boolean then
      let schema ← onStore fun store => store.add site.location builder.draft (.boolean b)
      return some (.schema schema)
    else return (← load site.location site.value).map .schema
  | .schema, value => return (← load site.location value).map .schema
  | .schemaList, _ => schemaList load site
  | .schemaMap, .object members => return some (.schemaMap (← schemaEntries load site members))
  | .items, _ => items load site
  | .dependencies, .object members =>
    return some (.dependencies (← dependencyEntries load site.location members))
  | .string, .string text => pure (some (.string text))
  | .pattern, .string text => do
    checkPattern site.location text
    return some (.string text)
  | .uri, .string text => return some (← uriText site text)
  | .positiveNumber, .number n => positiveNumber site n
  | .nonNegativeInteger, .number n => count site n
  | .boolean, .bool b => pure (some (.boolean b))
  | .stringSet, .array elements =>
    return some (.names (Members.ofList (← names site.location 0 elements)))
  | .types, _ => types load active site
  | .limitValue, .number n =>
    let limit := ((builder.keyword? site.entry.kind).bind Keyword.limit?).getD .empty
    pure (some (.limit (limitWith active site limit n)))
  | .limitFlag, _ => do
    limitFlag site
    return none
  | .json, value => pure (some (.json value))
  | .jsonList, .array elements => pure (some (.jsonList elements))
  | _, _ => pure none

/-- Tries candidates in order until one makes a keyword. -/
def tryCandidates (load : Loader) (active : DraftSet) (object : List (String × Json))
    (location : Location) (value : Json) (builder : Builder) :
    List CatalogEntry → LoadM Builder
  | [] => pure builder
  | entry :: rest => do
    match ← keyword load active builder { entry, value, object, location } with
    | some k => return builder.put entry.kind k
    | none => tryCandidates load active object location value builder rest

/-- Reads one member of an object. -/
def member (load : Loader) (active : DraftSet) (object : List (String × Json)) (key : String)
    (value : Json) (builder : Builder) : LoadM Builder := do
  let location := builder.location.child key
  let applicable := Catalog.applicable key active
  if applicable.isEmpty then
    if (← get).policy.strict then
      issue .error .keywordNotFound location s!"'{key}' is not a keyword of {active.debugText}"
      return builder
    else return builder.putExtra key value
  else
    let shape := Shape.of value
    let matching := applicable.filter (·.expects.accepts shape)
    if matching.isEmpty then
      applicable.forM fun entry =>
        malformed .typeMismatch location s!"'{key}' expects {entry.expects}, found {shape}"
      return builder
    else tryCandidates load active object location value builder matching

/-- Reads the members of an object in order. -/
def members (load : Loader) (active : DraftSet) (object : List (String × Json)) :
    List (String × Json) → Builder → LoadM Builder
  | [], builder => pure builder
  | (key, value) :: rest, builder => do
    members load active object rest (← member load active object key value builder)

end Digest
end SchemaAtlas
