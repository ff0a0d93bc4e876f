import SchemaAtlas.Proofs.Loading.Run
import SchemaAtlas.Proofs.Spelling.Document
import SchemaAtlas.Schema.Builder

/-!
# What the spelling of references leaves alone

The skeleton of a schema is the schema without the texts of its references and without the
values that it holds as data. More generally, the sketch of a keyword is the keyword without
data, with what is seen of its schemas in their places.
-/

namespace SchemaAtlas

/-! ## Skeletons -/

namespace Dependency

variable {σ : Type}

/-- The dependency without the names that it lists. -/
def bare : Dependency σ → Dependency σ
  | .schema s => .schema s
  | .properties _ => .properties []

end Dependency

namespace Keyword

variable {σ τ υ : Type}

/-- The keyword without data. -/
def bare : Keyword σ → Keyword σ
  | .dependencies entries => .dependencies (Entries.mapValues Dependency.bare entries)
  | .json _ => .json .null
  | .jsonList _ => .jsonList []
  | k => k

theorem map_map (f : σ → τ) (g : τ → υ) (k : Keyword σ) : (k.map f).map g = k.map (g ∘ f) := by
  cases k with
  | dependencies entries =>
    simp only [map, Entries.mapValues, List.map_map]
    refine congrArg Keyword.dependencies (List.map_congr_left fun entry _ => ?_)
    obtain ⟨name, d⟩ := entry
    cases d <;> rfl
  | schemaMap entries => simp [map, Entries.mapValues]
  | schemaList | tuple | union => simp [map]
  | _ => rfl

end Keyword

/-- The reference without its text. -/
def Reference.bare (r : Reference) : Reference := { r with written := "" }

namespace Body

variable {σ τ υ : Type}

/-- The content without data and without the text of a reference. -/
def bare : Body σ → Body σ
  | .object keywords _ => .object (Entries.mapValues Keyword.bare keywords) []
  | .boolean b => .boolean b
  | .reference r => .reference r.bare

theorem map_map (f : σ → τ) (g : τ → υ) (b : Body σ) : (b.map f).map g = b.map (g ∘ f) := by
  cases b with
  | object keywords extra => simp [map, Entries.mapValues, Keyword.map_map]
  | boolean | reference => rfl

end Body

namespace Schema

/-- The schema without data and without the texts of references. -/
def skeleton (s : Schema) : Schema :=
  descend (fun s body => .node s.id s.location s.draft (body.map Prod.snd).bare) s

end Schema

/-! ## Sketches -/

section

variable {α : Type} (view : Schema → α)

/-- The dependency with what is seen of its schema. -/
def Dependency.sketch (d : Dependency Schema) : Dependency α := (d.map view).bare

/-- The keyword without data, with what is seen of its schemas. -/
def Keyword.sketch (k : Keyword Schema) : Keyword α := (k.map view).bare

/-- The content without data, with what is seen of its schemas. -/
def Body.sketch (b : Body Schema) : Body α := (b.map view).bare

theorem Keyword.sketch_dependencies (entries : List (String × Dependency Schema)) :
    (Keyword.dependencies entries).sketch view =
      .dependencies (Entries.mapValues (Dependency.sketch view) entries) := by
  simp only [sketch, map, bare, Entries.mapValues, List.map_map]
  rfl

/-- A bound is part of the sketch. -/
theorem Keyword.limit?_sketch (k : Keyword Schema) : (k.sketch view).limit? = k.limit? := by
  cases k <;> rfl

theorem Body.sketch_object (list : List (KeywordKind × Keyword Schema))
    (extra : List (String × Json)) :
    (Body.object list extra).sketch view =
      .object (Entries.mapValues (Keyword.sketch view) list) [] := by
  simp only [sketch, map, bare, Entries.mapValues, List.map_map]
  rfl

end

/-- The keyword with the skeletons of its schemas. -/
abbrev Keyword.skeleton : Keyword Schema → Keyword Schema := sketch Schema.skeleton

/-- The content with the skeletons of its schemas. -/
abbrev Body.skeleton : Body Schema → Body Schema := sketch Schema.skeleton

namespace Schema

theorem skeleton_node (s : Schema) :
    s.skeleton = .node s.id s.location s.draft s.body.skeleton := by
  rw [skeleton, descend_node, Body.map_map]
  rfl

@[simp] theorem skeleton_id (s : Schema) : s.skeleton.id = s.id := by
  rw [skeleton_node]
  rfl

@[simp] theorem skeleton_location (s : Schema) : s.skeleton.location = s.location := by
  rw [skeleton_node]
  rfl

@[simp] theorem skeleton_reference? (s : Schema) :
    s.skeleton.reference? = s.reference?.map Reference.bare := by
  rw [skeleton_node]
  obtain ⟨id, location, draft, body⟩ := s
  cases body <;> rfl

theorem skeleton_keyword? (s : Schema) (kind : KeywordKind) :
    s.skeleton.keyword? kind = (s.keyword? kind).map Keyword.skeleton := by
  rw [skeleton_node]
  obtain ⟨id, location, draft, body⟩ := s
  cases body with
  | object list extra =>
    rw [Schema.body, Body.skeleton, Body.sketch_object]
    exact Entries.get?_mapValues _ _ _
  | boolean | reference => rfl

end Schema

namespace Store

/-- The store with the skeletons of its nodes and answers. -/
def skeleton (s : Store) : Store where
  nodes := s.nodes.map (Option.map Schema.skeleton)
  deferred := s.deferred.map fun d =>
    { answers := fun n => (d.answers n).map Schema.skeleton
      memo := d.memo.map (Option.map Schema.skeleton), calls := d.calls }

theorem size_skeleton (s : Store) : s.skeleton.nodes.size = s.nodes.size := Array.size_map

theorem skeleton_reserve (s : Store) : s.reserve.2.skeleton = s.skeleton.reserve.2 := by
  simp [skeleton, reserve]

theorem skeleton_complete (s : Store) (schema : Schema) :
    (s.complete schema).skeleton = s.skeleton.complete schema.skeleton := by
  simp [skeleton, complete]

theorem skeleton_node? (s : Store) (id : Nat) :
    s.skeleton.node? id = (s.node? id).map Schema.skeleton := by
  simp only [node?, skeleton, Array.getElem?_map]
  cases s.nodes[id]? with
  | none => rfl
  | some node => rfl

variable {s t : Store}

theorem size_of_skeleton (h : s.skeleton = t.skeleton) : s.nodes.size = t.nodes.size := by
  rw [← size_skeleton s, ← size_skeleton t, h]

theorem reserve_of_skeleton (h : s.skeleton = t.skeleton) :
    s.reserve.2.skeleton = t.reserve.2.skeleton := by
  rw [skeleton_reserve, skeleton_reserve, h]

theorem complete_of_skeleton (h : s.skeleton = t.skeleton) {N M : Schema}
    (hN : N.skeleton = M.skeleton) : (s.complete N).skeleton = (t.complete M).skeleton := by
  rw [skeleton_complete, skeleton_complete, h, hN]

/-- Nodes with the same skeleton of their contents are added alike. -/
theorem add_of_skeleton (h : s.skeleton = t.skeleton) (location : Location) (draft : Draft)
    {b c : Body Schema} (hb : b.skeleton = c.skeleton) :
    (s.add location draft b).1.skeleton = (t.add location draft c).1.skeleton ∧
      (s.add location draft b).2.skeleton = (t.add location draft c).2.skeleton := by
  have hnode : (s.add location draft b).1.skeleton = (t.add location draft c).1.skeleton := by
    rw [Schema.skeleton_node, Schema.skeleton_node]
    simp only [add, reserve, Schema.id, Schema.location, Schema.draft, Schema.body, hb,
      size_of_skeleton h]
  exact ⟨hnode, complete_of_skeleton (reserve_of_skeleton h) hnode⟩

end Store
end SchemaAtlas
