import SchemaAtlas.Draft
import SchemaAtlas.Keyword.Basic
import SchemaAtlas.Location

/-!
# Schemas

A schema node holds its nested schemas directly and names the target of a reference by
number, so that a schema is a finite tree although the graph of its references may have
cycles. The number of a node is its identity: two nodes are the same node when their
numbers agree, whatever they hold. Functions on schemas are given by `descend`, from the
results for the nested schemas; `descend_node` is its one equation.
-/

namespace SchemaAtlas

/-- What a reference leads to: a node, or an answer that is asked for when it is needed. -/
inductive Target where
  | node (id : Nat)
  | deferred (cell : Nat)
  deriving DecidableEq, Repr, Inhabited

/-- A reference as written, the URI that it names, and what that leads to. -/
structure Reference where
  written : String
  uri : Uri
  target : Target
  deriving DecidableEq, Repr, Inhabited

/-- The content of a node; `extra` holds the members that are no keywords. -/
inductive Body (σ : Type) where
  | object (keywords : List (KeywordKind × Keyword σ)) (extra : List (String × Json))
  | boolean (value : Bool)
  | reference (reference : Reference)
  deriving Inhabited

def Body.map {σ τ : Type} (f : σ → τ) : Body σ → Body τ
  | .object keywords extra => .object (Entries.mapValues (Keyword.map f) keywords) extra
  | .boolean value => .boolean value
  | .reference r => .reference r

inductive Schema where
  | node (id : Nat) (location : Location) (draft : Draft) (body : Body Schema)
  deriving Inhabited

namespace Schema

def id : Schema → Nat
  | .node id _ _ _ => id

def location : Schema → Location
  | .node _ location _ _ => location

/-- The draft that the node was loaded as. -/
def draft : Schema → Draft
  | .node _ _ draft _ => draft

def body : Schema → Body Schema
  | .node _ _ _ body => body

def uri (s : Schema) : Uri := s.location.uri

/-- The same node, not merely equal content. -/
def isSame (s t : Schema) : Bool := s.id == t.id

def reference? (s : Schema) : Option Reference :=
  match s.body with
  | .reference r => some r
  | _ => none

def isReference (s : Schema) : Bool := s.reference?.isSome

def boolean? (s : Schema) : Option Bool :=
  match s.body with
  | .boolean b => some b
  | _ => none

/-- The keywords of a node, none for a reference or a boolean schema. -/
def keywords (s : Schema) : List (KeywordKind × Keyword Schema) :=
  match s.body with
  | .object keywords _ => keywords
  | _ => []

def extra (s : Schema) : List (String × Json) :=
  match s.body with
  | .object _ extra => extra
  | _ => []

def keyword? (s : Schema) (kind : KeywordKind) : Option (Keyword Schema) :=
  Entries.get? kind s.keywords

/-- The schemas nested directly in a node, with the keyword that holds them and the segment
below its key. -/
def children (s : Schema) : List (KeywordKind × Option String × Schema) :=
  s.keywords.flatMap fun (kind, keyword) =>
    keyword.subschemas.map fun (segment, child) => (kind, segment, child)

/-! ## Descent -/

section Descend

variable {α : Type} (step : Schema → Body (Schema × α) → α)

mutual

/-- The value of a node, from its body with the values of the nested schemas. -/
def descend : Schema → α
  | .node id location draft body => step (.node id location draft body) (descendBody body)

def descendBody : Body Schema → Body (Schema × α)
  | .object keywords extra => .object (descendKeywords keywords) extra
  | .boolean value => .boolean value
  | .reference r => .reference r

def descendKeywords : List (KeywordKind × Keyword Schema) →
    List (KeywordKind × Keyword (Schema × α))
  | [] => []
  | (kind, keyword) :: rest => (kind, descendKeyword keyword) :: descendKeywords rest

def descendKeyword : Keyword Schema → Keyword (Schema × α)
  | .schema s => .schema (s, descend s)
  | .schemaList list => .schemaList (descendList list)
  | .schemaMap entries => .schemaMap (descendEntries entries)
  | .items s => .items (s, descend s)
  | .tuple list => .tuple (descendList list)
  | .dependencies entries => .dependencies (descendDependencies entries)
  | .string text => .string text
  | .uri text => .uri text
  | .number n => .number n
  | .count n => .count n
  | .boolean b => .boolean b
  | .names set => .names set
  | .types shapes => .types shapes
  | .union shapes list => .union shapes (descendList list)
  | .limit l => .limit l
  | .json v => .json v
  | .jsonList vs => .jsonList vs

def descendList : List Schema → List (Schema × α)
  | [] => []
  | s :: rest => (s, descend s) :: descendList rest

def descendEntries : List (String × Schema) → List (String × Schema × α)
  | [] => []
  | (name, s) :: rest => (name, s, descend s) :: descendEntries rest

def descendDependencies : List (String × Dependency Schema) →
    List (String × Dependency (Schema × α))
  | [] => []
  | (name, .schema s) :: rest => (name, .schema (s, descend s)) :: descendDependencies rest
  | (name, .properties names) :: rest => (name, .properties names) :: descendDependencies rest

end

theorem descendList_eq (list : List Schema) :
    descendList step list = list.map fun s => (s, descend step s) := by
  induction list with
  | nil => rfl
  | cons s rest ih => simp [descendList, ih]

theorem descendEntries_eq (entries : List (String × Schema)) :
    descendEntries step entries = Entries.mapValues (fun s => (s, descend step s)) entries := by
  induction entries with
  | nil => rfl
  | cons e rest ih => simpa [descendEntries, Entries.mapValues] using ih

theorem descendDependencies_eq (entries : List (String × Dependency Schema)) :
    descendDependencies step entries =
      Entries.mapValues (Dependency.map fun s => (s, descend step s)) entries := by
  induction entries with
  | nil => rfl
  | cons e rest ih =>
    obtain ⟨name, d⟩ := e
    cases d <;> simpa [descendDependencies, Entries.mapValues, Dependency.map] using ih

theorem descendKeyword_eq (keyword : Keyword Schema) :
    descendKeyword step keyword = keyword.map fun s => (s, descend step s) := by
  cases keyword <;>
    simp [descendKeyword, Keyword.map, descendList_eq, descendEntries_eq, descendDependencies_eq]

theorem descendKeywords_eq (keywords : List (KeywordKind × Keyword Schema)) :
    descendKeywords step keywords =
      Entries.mapValues (Keyword.map fun s => (s, descend step s)) keywords := by
  induction keywords with
  | nil => rfl
  | cons e rest ih => simpa [descendKeywords, Entries.mapValues, descendKeyword_eq] using ih

theorem descend_node (s : Schema) :
    descend step s = step s (s.body.map fun c => (c, descend step c)) := by
  obtain ⟨id, location, draft, body⟩ := s
  cases body <;> simp [descend, descendBody, Body.map, Schema.body, descendKeywords_eq]

end Descend

/-! ## Content -/

/-- Whether a keyword, given tests for its nested schemas, passes on another keyword. -/
def keywordAgrees : Keyword (Schema → Bool) → Keyword Schema → Bool
  | .schema p, .schema s => p s
  | .schemaList ps, .schemaList ss => agreeLists ps ss
  | .schemaMap ps, .schemaMap ss => agreeEntries ps ss
  | .items p, .items s => p s
  | .tuple ps, .tuple ss => agreeLists ps ss
  | .dependencies ps, .dependencies ss => agreeDependencies ps ss
  | .string a, .string b => a == b
  | .uri a, .uri b => a == b
  | .number a, .number b => a.equals b
  | .count a, .count b => a == b
  | .boolean a, .boolean b => a == b
  | .names a, .names b => a == b
  | .types a, .types b => a == b
  | .union a ps, .union b ss => a == b && agreeLists ps ss
  | .limit a, .limit b => a.equals b
  | .json a, .json b => a == b
  | .jsonList a, .jsonList b => Json.equalElements a b
  | _, _ => false
where
  agreeLists : List (Schema → Bool) → List Schema → Bool
    | [], [] => true
    | p :: ps, s :: ss => p s && agreeLists ps ss
    | _, _ => false
  agreeEntries : List (String × (Schema → Bool)) → List (String × Schema) → Bool
    | [], [] => true
    | (k, p) :: ps, (l, s) :: ss => k == l && p s && agreeEntries ps ss
    | _, _ => false
  agreeDependencies : List (String × Dependency (Schema → Bool)) →
      List (String × Dependency Schema) → Bool
    | [], [] => true
    | (k, .schema p) :: ps, (l, .schema s) :: ss => k == l && p s && agreeDependencies ps ss
    | (k, .properties a) :: ps, (l, .properties b) :: ss =>
      k == l && a == b && agreeDependencies ps ss
    | _, _ => false

def agreeKeywords : List (KeywordKind × Keyword (Schema → Bool)) →
    List (KeywordKind × Keyword Schema) → Bool
  | [], [] => true
  | (k, p) :: ps, (l, s) :: ss => k == l && keywordAgrees p s && agreeKeywords ps ss
  | _, _ => false

/-- Equal content: keywords and other members, the boolean value, or the URI referred to.
Places and drafts do not count. -/
def equals (s : Schema) : Schema → Bool :=
  descend (fun _ body other =>
    match body.map Prod.snd, other.body with
    | .object ps extra, .object keywords extra' =>
      agreeKeywords ps keywords && Json.equalMembers extra extra'
    | .boolean a, .boolean b => a == b
    | .reference a, .reference b => a.uri == b.uri
    | _, _ => false) s

instance : BEq Schema := ⟨equals⟩

/-- Equal content of two keywords. -/
def sameKeyword (a b : Keyword Schema) : Bool := keywordAgrees (a.map equals) b

end Schema
end SchemaAtlas
