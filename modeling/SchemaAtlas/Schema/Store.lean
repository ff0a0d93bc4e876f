import SchemaAtlas.Schema.Basic

/-!
# The store of nodes

The store numbers the nodes and knows every finished one, so a reference may name a node
that is still being built. A deferred reference asks for its target at its first use and
keeps the answer. Targets are found by following references until a node that is none; a
chain longer than `Store.longestChain` leads nowhere.
-/

namespace SchemaAtlas

/-- A deferred answer: `answers n` is what the call after `n` others gives. -/
structure Deferred where
  answers : Nat → Option Schema
  memo : Option (Option Schema)
  calls : Nat

structure Store where
  nodes : Array (Option Schema)
  deferred : Array Deferred

namespace Store

def empty : Store := ⟨#[], #[]⟩

instance : Inhabited Store := ⟨empty⟩

/-- The finished node with a number. -/
def node? (s : Store) (id : Nat) : Option Schema := s.nodes[id]?.join

/-- A number for a node that is yet to be built. -/
def reserve (s : Store) : Nat × Store := (s.nodes.size, { s with nodes := s.nodes.push none })

/-- Records a node under the number reserved for it. -/
def complete (s : Store) (schema : Schema) : Store :=
  { s with nodes := s.nodes.setIfInBounds schema.id (some schema) }

/-- A new finished node. -/
def add (s : Store) (location : Location) (draft : Draft) (body : Body Schema) :
    Schema × Store :=
  let (id, s) := s.reserve
  let schema := Schema.node id location draft body
  (schema, s.complete schema)

/-- A new deferred answer. -/
def defer (s : Store) (answers : Nat → Option Schema) : Target × Store :=
  (.deferred s.deferred.size, { s with deferred := s.deferred.push ⟨answers, none, 0⟩ })

/-- How often a deferred answer has been asked for. -/
def calls (s : Store) (cell : Nat) : Nat := (s.deferred[cell]?.map Deferred.calls).getD 0

/-- What a reference leads to in one step. -/
def follow (target : Target) : StateM Store (Option Schema) := fun s =>
  match target with
  | .node id => (s.node? id, s)
  | .deferred cell =>
    match s.deferred[cell]? with
    | none => (none, s)
    | some d =>
      match d.memo with
      | some answer => (answer, s)
      | none =>
        let answer := d.answers d.calls
        let asked := { d with memo := some answer, calls := d.calls + 1 }
        (answer, { s with deferred := s.deferred.setIfInBounds cell asked })

/-- The greatest number of nodes that a chain of references passes through. -/
def longestChain : Nat := 64

/-- The first of at most `n` nodes of a chain that is no reference. -/
def chainEnd (n : Nat) (schema : Schema) : StateM Store (Option Schema) :=
  match n with
  | 0 => pure none
  | n + 1 =>
    match schema.reference? with
    | none => pure (some schema)
    | some r => do
      match ← follow r.target with
      | none => pure none
      | some next => chainEnd n next

/-- The target of a reference, which is never a reference itself. -/
def target (r : Reference) : StateM Store (Option Schema) := do
  match ← follow r.target with
  | none => pure none
  | some next => chainEnd longestChain next

/-- The target of a reference, and any other node itself. -/
def resolved (schema : Schema) : StateM Store (Option Schema) :=
  match schema.reference? with
  | some r => target r
  | none => pure (some schema)

@[simp] theorem reserve_fst (s : Store) : s.reserve.1 = s.nodes.size := rfl

theorem node?_complete (s : Store) (schema : Schema) (h : schema.id < s.nodes.size) :
    (s.complete schema).node? schema.id = some schema := by
  simp [complete, node?, h]

theorem node?_add (s : Store) (location : Location) (draft : Draft) (body : Body Schema) :
    (s.add location draft body).2.node? (s.add location draft body).1.id =
      some (s.add location draft body).1 := by
  simp [add, reserve, complete, node?, Schema.id]

end Store
end SchemaAtlas
