import SchemaAtlas.Json.Writer
import SchemaAtlas.Report
import SchemaAtlas.Schema.Store

/-!
# Merging keywords

Equal values stay, and of different ones that of the override wins, with a conflict. Sets
are united, with a conflict if they differed. Keywords that hold schemas merge those. Two
keywords of different forms, lists of different lengths, and one schema for all items beside
a tuple cannot be merged.

The schemas of the base come with the functions that merge an override into them.
-/

namespace SchemaAtlas

/-- Why two keywords cannot be merged. -/
inductive MergeFault where
  | unsupported (key : String)
  | tupleBesideSchema (key : String)
  | unpaired (key : String) (base override : Nat)
  deriving DecidableEq, Repr

def MergeFault.message : MergeFault → String
  | .unsupported key => s!"no merge strategy for keyword '{key}'"
  | .tupleBesideSchema key =>
    s!"cannot merge '{key}': single schema and tuple items cannot be combined"
  | .unpaired key base override =>
    s!"cannot merge '{key}': {base} schemas cannot be paired with {override}"

/-- The state of a merge. -/
structure MergeState where
  store : Store
  report : MergeReport
  deriving Inhabited

abbrev MergeM := StateM MergeState

/-- What two keywords merge into, with the conflict if the override replaced a value. -/
structure Merged where
  keyword : Keyword Schema
  conflict : Option String
  deriving Inhabited

namespace Merge

/-- Merges an override into a fixed base at a path. -/
abbrev Merger := Pointer → Schema → MergeM Schema

def record (path : Pointer) (verb : MergeVerb) (message : Option String) : MergeM Unit :=
  modify fun s => { s with report := s.report.record { path, verb, message } }

/-- Runs a step on the store of nodes. -/
def onStore {α : Type} (step : Store → α × Store) : MergeM α :=
  modifyGet fun s =>
    let (a, store) := step s.store
    (a, { s with store })

/-! ## Plain values -/

/-- A value in a message. -/
def describe : Keyword Schema → String
  | .string text | .uri text => s!"'{text}'"
  | .number n => n.text
  | .count n => toString n
  | .boolean b => toString b
  | .json v => v.text
  | .jsonList vs => (Json.array vs).text
  | .names set => quotedList "\x7b" "\x7d" set
  | .types set => quotedList "[" "]" (set.map Shape.name)
  | _ => ""

/-- The override, with a conflict unless it is equal. -/
def replace (base override : Keyword Schema) : Merged :=
  if Schema.sameKeyword base override then ⟨base, none⟩
  else ⟨override, some s!"{describe base} replaced by {describe override}"⟩

/-- A union of two sets, with a conflict if they differed. -/
def united (differed : Bool) (union : Keyword Schema) : Merged :=
  ⟨union, if differed then some s!"combined into {describe union}" else none⟩

/-- The values of a list and those of another that it lacks. -/
def uniteValues (base override : List Json) : List Json :=
  override.foldl (fun union v => if union.any (· == v) then union else union ++ [v]) base

/-- One bound of two, the override's if it has one. -/
def mergeBound (name : String) : Option Number → Option Number → Option Number × List String
  | some a, some b =>
    (some b, if a.equals b then [] else [s!"{name} {a} replaced by {b}"])
  | a, b => (b.or a, [])

/-- The conflicts in one message. -/
def joined (conflicts : List String) : Option String :=
  if conflicts.isEmpty then none else some (", ".intercalate conflicts)

def mergeLimit (base override : Limit) : Merged :=
  let (inclusive, conflicts) := mergeBound "inclusive" base.inclusive override.inclusive
  let (exclusive, more) := mergeBound "exclusive" base.exclusive override.exclusive
  ⟨.limit { inclusive, exclusive }, joined (conflicts ++ more)⟩

/-! ## Schemas -/

/-- Merges lists of equal length, element by element. -/
def mergePairs (path : Pointer) (index : Nat) :
    List (Schema × Merger) → List Schema → MergeM (List Schema)
  | (_, merger) :: bases, override :: overrides => do
    let merged ← merger (path.childIndex index) override
    return merged :: (← mergePairs path (index + 1) bases overrides)
  | _, _ => pure []

/-- Merges lists if they are equally long. -/
def mergeLists (kind : KeywordKind) (path : Pointer) (form : List Schema → Keyword Schema)
    (bases : List (Schema × Merger)) (overrides : List Schema) :
    MergeM (Except MergeFault Merged) :=
  if bases.length = overrides.length then
    return .ok ⟨form (← mergePairs path 0 bases overrides), none⟩
  else return .error (.unpaired kind.key bases.length overrides.length)

/-- Merges named schemas into a map, in the order of their names. -/
def mergeEntries (path : Pointer) (bases : List (String × Schema × Merger))
    (merged : List (String × Schema)) : List (String × Schema) → MergeM (List (String × Schema))
  | [] => pure merged
  | (name, override) :: rest => do
    let schema ← match Entries.get? name bases with
      | some (_, merger) => merger (path.child name) override
      | none => do
        record (path.child name) .add none
        pure override
    mergeEntries path bases (Entries.insert name schema merged) rest

/-- Merges what one property depends on; a change of form replaces. -/
def mergeDependency (path : Pointer) (name : String) :
    Option (Dependency (Schema × Merger)) → Dependency Schema →
      MergeM (Dependency Schema × List String)
  | none, override => do
    record path .add none
    return (override, [])
  | some (.schema (_, merger)), .schema override => return (.schema (← merger path override), [])
  | some (.properties a), .properties b =>
    return (.properties (Members.union a b),
      if a = b then [] else [s!"'{name}' properties combined"])
  | some _, override => return (override, [s!"'{name}' replaced"])

/-- Merges dependencies into a map, in the order of their names. -/
def mergeDependencies (path : Pointer) (bases : List (String × Dependency (Schema × Merger)))
    (merged : List (String × Dependency Schema)) (conflicts : List String) :
    List (String × Dependency Schema) → MergeM (List (String × Dependency Schema) × List String)
  | [] => pure (merged, conflicts)
  | (name, override) :: rest => do
    let (d, more) ← mergeDependency (path.child name) name (Entries.get? name bases) override
    mergeDependencies path bases (Entries.insert name d merged) (conflicts ++ more) rest

/-- Merges a keyword into another of the same kind; `path` is that of the keyword. -/
def mergeKeyword (kind : KeywordKind) (path : Pointer) (base : Keyword (Schema × Merger))
    (override : Keyword Schema) : MergeM (Except MergeFault Merged) :=
  let plain := base.map Prod.fst
  match base, override with
  | .string _, .string _ | .uri _, .uri _ | .number _, .number _ | .count _, .count _
  | .boolean _, .boolean _ | .json _, .json _ => return .ok (replace plain override)
  | .names a, .names b => return .ok (united (a ≠ b) (.names (Members.union a b)))
  | .types a, .types b => return .ok (united (a ≠ b) (.types (Members.union a b)))
  | .jsonList a, .jsonList b =>
    return .ok (united (!Json.equalElements a b) (.jsonList (uniteValues a b)))
  | .limit a, .limit b => return .ok (mergeLimit a b)
  | .schema (_, merger), .schema s => return .ok ⟨.schema (← merger path s), none⟩
  | .schemaMap a, .schemaMap b =>
    return .ok ⟨.schemaMap (← mergeEntries path a (Entries.mapValues Prod.fst a) b), none⟩
  | .schemaList a, .schemaList b => mergeLists kind path .schemaList a b
  | .items (_, merger), .items s => return .ok ⟨.items (← merger path s), none⟩
  | .tuple a, .tuple b => mergeLists kind path .tuple a b
  | .items _, .tuple _ | .tuple _, .items _ => return .error (.tupleBesideSchema kind.key)
  | .dependencies a, .dependencies b => do
    let (merged, conflicts) ←
      mergeDependencies path a (Entries.mapValues (Dependency.map Prod.fst) a) [] b
    return .ok ⟨.dependencies merged, joined conflicts⟩
  | _, _ => return .error (.unsupported kind.key)

end Merge
end SchemaAtlas
