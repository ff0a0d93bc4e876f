import SchemaAtlas.Schema.Store

/-!
# Reference graphs

The graph of everything that is reachable from a schema: a node for each URI, an edge for
each schema that a keyword holds and for each reference to its target. A group of nodes is
recursive if each of them reaches every one of them, itself included.
-/

namespace SchemaAtlas

/-- A schema and all schemas nested in it. -/
def Schema.parts : Schema → List Schema :=
  descend fun s body =>
    match body with
    | .object keywords _ =>
      s :: keywords.flatMap fun (_, keyword) =>
        keyword.subschemas.flatMap fun (_, _, parts) => parts
    | _ => [s]

/-- The finished nodes with all schemas nested in them. -/
def Store.parts (store : Store) : List Schema :=
  (store.nodes.toList.filterMap id).flatMap Schema.parts

inductive EdgeKind where
  /-- From a schema to one that its keyword holds. -/
  | holds (kind : KeywordKind)
  /-- From a reference to its target. -/
  | refersTo
  deriving DecidableEq, Repr, Inhabited

def EdgeKind.label : EdgeKind → String
  | .holds kind => kind.key
  | .refersTo => "$ref"

structure Edge where
  source : Nat
  target : Nat
  kind : EdgeKind
  deriving DecidableEq, Repr, Inhabited

/-- Nodes by number, in the order in which they were met, and edges in the order in which
they were added. -/
structure ReferenceGraph where
  nodes : Array String
  edges : Array Edge
  deriving Inhabited

namespace ReferenceGraph

def empty : ReferenceGraph := ⟨#[], #[]⟩

/-- The number of the node with a URI. -/
def find? (uri : String) (g : ReferenceGraph) : Option Nat := g.nodes.findIdx? (· == uri)

def contains (uri : String) (g : ReferenceGraph) : Bool := (g.find? uri).isSome

def uriOf (g : ReferenceGraph) (node : Nat) : String := g.nodes[node]?.getD ""

/-! ## Walking a schema -/

structure Walk where
  store : Store
  graph : ReferenceGraph
  deriving Inhabited

abbrev WalkM := StateM Walk

def addNode (uri : String) : WalkM Nat :=
  modifyGet fun w =>
    (w.graph.nodes.size, { w with graph := { w.graph with nodes := w.graph.nodes.push uri } })

def addEdge (edge : Edge) : WalkM Unit :=
  modify fun w => { w with graph := { w.graph with edges := w.graph.edges.push edge } }

/-- The target of a reference. -/
def targetOf (r : Reference) : WalkM (Option Schema) :=
  modifyGet fun w =>
    let (target, store) := (Store.target r).run w.store
    (target, { w with store })

/-- Visits the schemas that keywords hold, each before the edge to it. -/
def visitChildren (visit : Schema → WalkM Nat) (node : Nat) :
    List (KeywordKind × Option String × Schema) → WalkM Unit
  | [] => pure ()
  | (kind, _, child) :: rest => do
    let target ← visit child
    addEdge { source := node, target, kind := .holds kind }
    visitChildren visit node rest

/-- Visits a schema and all that it reaches, unless its URI was met before. At most `steps`
visits are nested in each other. -/
def visit (steps : Nat) (schema : Schema) : WalkM Nat := do
  let uri := schema.uri.text
  match (← get).graph.find? uri with
  | some node => return node
  | none =>
    let node ← addNode uri
    match steps with
    | 0 => return node
    | steps + 1 =>
      match schema.reference? with
      | some r =>
        match ← targetOf r with
        | some target =>
          let target ← visit steps target
          addEdge { source := node, target, kind := .refersTo }
        | none => pure ()
      | none => visitChildren (visit steps) node schema.children
      return node

/-- The graph of what a schema reaches. Visits nest no deeper than there are schemas nested in
the schema itself and in the nodes of the store. -/
def ofSchema (root : Schema) : StateM Store ReferenceGraph := fun store =>
  let steps := (root.parts ++ store.parts).length
  let (_, w) := (visit steps root).run { store, graph := .empty }
  (w.graph, w.store)

/-! ## Queries -/

/-- Puts an edge behind those with a smaller or equal URI. -/
def insertByUri (edge : String × EdgeKind) : List (String × EdgeKind) → List (String × EdgeKind)
  | [] => [edge]
  | other :: rest =>
    if edge.1 < other.1 then edge :: other :: rest else other :: insertByUri edge rest

/-- The edges that leave a node, in the order of their targets; those with the same target,
the newest first. -/
def outgoing (uri : String) (g : ReferenceGraph) : List (String × EdgeKind) :=
  match g.find? uri with
  | none => []
  | some node =>
    let edges := (g.edges.toList.filter (·.source = node)).reverse
    (edges.map fun e => (g.uriOf e.target, e.kind)).foldl
      (fun sorted edge => insertByUri edge sorted) []

/-- The nodes that edges lead to from a node. -/
def successors (g : ReferenceGraph) (node : Nat) : List Nat :=
  (g.edges.toList.filter (·.source = node)).map (·.target)

/-- Adds to `seen` the waiting nodes and all that they reach. -/
def close (next : Nat → List Nat) : Nat → List Nat → List Nat → List Nat
  | 0, _, seen => seen
  | _, [], seen => seen
  | steps + 1, node :: waiting, seen =>
    if seen.contains node then close next steps waiting seen
    else close next steps (next node ++ waiting) (node :: seen)

/-- The nodes that a node reaches by one edge or more. -/
def reachedFrom (g : ReferenceGraph) (node : Nat) : List Nat :=
  close g.successors (2 * g.edges.size + 1) (g.successors node) []

/-- A node with all that it reaches and is reached by, from what each node reaches. -/
def componentOf (reached : Array (List Nat)) (i : Nat) : List Nat :=
  let reaches (i j : Nat) : Bool := (reached[i]?.getD []).contains j
  (List.range reached.size).filter fun j => i = j || (reaches i j && reaches j i)

/-- The strongly connected components. -/
def components (g : ReferenceGraph) : List (List Nat) :=
  let reached := (Array.range g.nodes.size).map g.reachedFrom
  ((List.range g.nodes.size).map (componentOf reached)).eraseDups

/-- Whether a component has several nodes, or one with an edge to itself. -/
def recurs (g : ReferenceGraph) : List Nat → Bool
  | [] => false
  | [node] => (g.successors node).contains node
  | _ :: _ :: _ => true

def insertGroup (group : List String) : List (List String) → List (List String)
  | [] => [group]
  | other :: rest =>
    if group < other then group :: other :: rest else other :: insertGroup group rest

/-- The recursive ones of some components by URI, each in order, in the order of their first
members. -/
def groupsOf (g : ReferenceGraph) (components : List (List Nat)) : List (List String) :=
  ((components.filter g.recurs).map fun members => Members.ofList (members.map g.uriOf)).foldl
    (fun sorted group => insertGroup group sorted) []

/-- The recursive groups. -/
def cycles (g : ReferenceGraph) : List (List String) := g.groupsOf g.components

def isRecursive (g : ReferenceGraph) : Bool := !g.cycles.isEmpty

/-! ## Drawing -/

def escapeLabel (label : String) : String :=
  String.ofList (label.toList.flatMap fun c => if c = '\\' || c = '"' then ['\\', c] else [c])

/-- The graph in the DOT language, references dashed. -/
def dot (g : ReferenceGraph) : String :=
  let node (i : Nat) (uri : String) : String :=
    "  n" ++ toString i ++ " [label=\"" ++ escapeLabel uri ++ "\"];\n"
  let edge (e : Edge) : String :=
    let style := if e.kind = .refersTo then ", style=dashed" else ""
    "  n" ++ toString e.source ++ " -> n" ++ toString e.target ++ " [label=\"" ++
      escapeLabel e.kind.label ++ "\"" ++ style ++ "];\n"
  "digraph ReferenceGraph \x7b\n  rankdir=LR;\n" ++
    "  node [shape=box, fontname=\"Helvetica\", fontsize=10];\n" ++
    "  edge [fontname=\"Helvetica\", fontsize=8];\n\n" ++
    String.join (g.nodes.toList.zipIdx.map fun (uri, i) => node i uri) ++ "\n" ++
    String.join (g.edges.toList.map edge) ++ "\x7d\n"

end ReferenceGraph
end SchemaAtlas
