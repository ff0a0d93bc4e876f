import SchemaAtlas.Checksum
import SchemaAtlas.Merge.Keyword
import SchemaAtlas.Schema.Builder

/-!
# Merging schemas

An override is merged into a base keyword by keyword, into a schema with a name of its own.
A reference on either side is replaced as a whole, the schema `true` changes nothing, and
the schema `false` cannot be merged. Identifiers take no part. A report says what was done
at which path; a keyword that cannot be merged keeps the base's value.
-/

namespace SchemaAtlas

namespace Merge

/-- Merges one keyword of the override into the content being built. -/
def mergeMember (path : Pointer) (base : List (KeywordKind × Keyword (Schema × Merger)))
    (kind : KeywordKind) (override : Keyword Schema) (builder : Builder) : MergeM Builder := do
  let path := path.child kind.key
  match Entries.get? kind base with
  | none =>
    record path .add none
    return builder.put kind override
  | some existing =>
    match ← mergeKeyword kind path existing override with
    | .ok merged =>
      match merged.conflict with
      | some message => record path .conflict (some message)
      | none => record path .merge none
      return builder.put kind merged.keyword
    | .error fault =>
      record path .error (some fault.message)
      return builder

/-- Merges the keywords of the override in order. -/
def mergeMembers (path : Pointer) (base : List (KeywordKind × Keyword (Schema × Merger))) :
    List (KeywordKind × Keyword Schema) → Builder → MergeM Builder
  | [], builder => pure builder
  | (kind, override) :: rest, builder => do
    if kind.isIdentity then mergeMembers path base rest builder
    else mergeMembers path base rest (← mergeMember path base kind override builder)

/-- The keywords of a body. -/
def keywordsOf {σ : Type} : Body σ → List (KeywordKind × Keyword σ)
  | .object keywords _ => keywords
  | _ => []

/-- Merges an override that is no reference and not boolean into a base of that sort, or
into `true`. -/
def combine (base : Schema) (body : Body (Schema × Merger)) (path : Pointer)
    (override : Schema) : MergeM Schema := do
  let location := Location.ofDocument (mergeName base.uri override.uri)
  let start := { Builder.ofSchema base with location }.remove .id
  let builder ← mergeMembers path (keywordsOf body) override.keywords start
  let builder := override.extra.foldl (fun b (key, value) => b.putExtra key value) builder
  onStore builder.build

/-- Merges an override into a base. -/
def step (base : Schema) (body : Body (Schema × Merger)) : Merger := fun path override => do
  if base.isReference || override.isReference then return override
  else
    match base.boolean?, override.boolean? with
    | _, some true | some false, some false => return base
    | some false, none | _, some false =>
      record path .conflict (some "false schema cannot be merged")
      return override
    | _, none => combine base body path override

/-- Merges an override into a base that stands at a path. -/
def mergeAt (path : Pointer) (base override : Schema) : MergeM Schema :=
  Schema.descend step base path override

/-- The unfolding of a merge along the base. -/
theorem mergeAt_eq (path : Pointer) (base override : Schema) :
    mergeAt path base override =
      step base (base.body.map fun s => (s, fun path override => mergeAt path s override)) path
        override := by
  unfold mergeAt
  rw [Schema.descend_node]

/-- Merges an override, if there is one, into a base. -/
def mergeOptional (path : Pointer) (base : Schema) : Option Schema → MergeM Schema
  | none => pure base
  | some override => mergeAt path base override

/-- Merges two keywords of the same kind. -/
def mergeKeywords (kind : KeywordKind) (path : Pointer) (base override : Keyword Schema) :
    MergeM (Except MergeFault Merged) :=
  mergeKeyword kind path (base.map fun s => (s, fun path override => mergeAt path s override))
    override

end Merge

/-- Merges two schemas: what they merge into, the report, and the store with the new nodes. -/
def mergeSchemas (base override : Schema) (store : Store) : Schema × MergeReport × Store :=
  let (schema, s) := (Merge.mergeAt .root base override).run { store, report := .empty }
  (schema, s.report, s.store)

end SchemaAtlas
