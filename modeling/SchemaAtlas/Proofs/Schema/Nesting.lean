import SchemaAtlas.Proofs.Loading.Nested
import Mathlib.Algebra.Order.BigOperators.Group.List
import Mathlib.Algebra.Order.Group.Nat
import Mathlib.Algebra.Ring.Nat

/-!
# Induction over nested schemas

A schema is finite, so what holds of a node as soon as it holds of the nodes nested in it
holds of every node. The schemas nested in a keyword move with the keyword: replacing them
keeps their segments and their order.
-/

namespace SchemaAtlas

namespace Keyword

variable {σ τ : Type}

theorem indexed_map (f : σ → τ) (list : List σ) :
    indexed (list.map f) = (indexed list).map fun entry => (entry.1, f entry.2) := by
  simp [indexed, List.zipIdx_map]

/-- Replacing the nested schemas replaces them in their places. -/
theorem subschemas_map (f : σ → τ) (k : Keyword σ) :
    (k.map f).subschemas = k.subschemas.map fun entry => (entry.1, f entry.2) := by
  cases k with
  | schemaList list | tuple list | union _ list => simp [map, subschemas, indexed_map]
  | schemaMap entries => simp [map, subschemas, Entries.mapValues]
  | dependencies entries =>
    induction entries with
    | nil => rfl
    | cons entry rest ih =>
      simp only [map, subschemas, Entries.mapValues] at ih
      obtain ⟨name, d⟩ := entry
      cases d with
      | schema s => simpa [map, subschemas, Entries.mapValues, Dependency.map] using ih
      | properties names => simpa [map, subschemas, Entries.mapValues, Dependency.map] using ih
  | schema | items | string | uri | number | count | boolean | names | types | limit | json
  | jsonList => rfl

/-- What becomes of a keyword depends only on what becomes of its nested schemas. -/
theorem map_congr {f g : σ → τ} {k : Keyword σ} (h : ∀ s ∈ k.nodes, f s = g s) :
    k.map f = k.map g := by
  cases k with
  | string | uri | number | count | boolean | names | types | limit | json | jsonList => rfl
  | schema s => exact congrArg Keyword.schema (h s List.mem_cons_self)
  | items s => exact congrArg Keyword.items (h s List.mem_cons_self)
  | schemaList list | tuple list | union _ list =>
    simp only [map]
    rw [List.map_congr_left]
    intro s hs
    exact h s (by simpa [nodes, subschemas] using hs)
  | schemaMap entries =>
    simp only [map, Entries.mapValues]
    rw [List.map_congr_left]
    intro entry hentry
    rw [h entry.2 (List.mem_map.mpr ⟨_, List.mem_map_of_mem hentry, rfl⟩)]
  | dependencies entries =>
    simp only [map, Entries.mapValues]
    rw [List.map_congr_left]
    rintro ⟨name, d⟩ hentry
    cases d with
    | properties => rfl
    | schema s =>
      have hmem : s ∈ (Keyword.dependencies entries).nodes :=
        List.mem_map.mpr ⟨(some name, s), List.mem_filterMap.mpr ⟨_, hentry, rfl⟩, rfl⟩
      simp [Dependency.map, h s hmem]

theorem nodes_map (f : σ → τ) (k : Keyword σ) : (k.map f).nodes = k.nodes.map f := by
  simp [nodes, subschemas_map]

theorem nodes_schemaList (list : List σ) : (Keyword.schemaList list).nodes = list := by
  simp [nodes, subschemas, indexed, Function.comp_def]

theorem nodes_tuple (list : List σ) : (Keyword.tuple list).nodes = list :=
  nodes_schemaList list

theorem mem_nodes_schemaMap {c : σ} {entries : List (String × σ)} :
    c ∈ (Keyword.schemaMap entries).nodes ↔ ∃ name, (name, c) ∈ entries := by
  simp [nodes, subschemas]

theorem mem_nodes_dependencies {c : σ} {entries : List (String × Dependency σ)} :
    c ∈ (Keyword.dependencies entries).nodes ↔ ∃ name, (name, .schema c) ∈ entries := by
  simp only [nodes, subschemas, List.mem_map, List.mem_filterMap, Prod.exists]
  constructor
  · rintro ⟨_, _, ⟨name, d, hd, heq⟩, rfl⟩
    cases d with
    | schema => exact ⟨name, (Prod.mk.inj (Option.some.inj heq)).2 ▸ hd⟩
    | properties => cases heq
  · rintro ⟨name, hd⟩
    exact ⟨some name, c, ⟨name, .schema c, hd, rfl⟩, rfl⟩

end Keyword

namespace Schema

/-- The number of nodes in a schema, itself included. -/
def weight : Schema → Nat :=
  descend fun _ body =>
    match body with
    | .object keywords _ => 1 + (keywords.flatMap fun entry => entry.2.nodes.map Prod.snd).sum
    | _ => 1

theorem weight_of_mem {s child : Schema} {kind : KeywordKind} {k : Keyword Schema}
    (hk : (kind, k) ∈ s.keywords) (hc : child ∈ k.nodes) : child.weight < s.weight := by
  obtain ⟨id, location, draft, body⟩ := s
  cases body with
  | boolean | reference => cases hk
  | object keywords extra =>
    have hmem : child.weight ∈ keywords.flatMap fun entry => entry.2.nodes.map weight :=
      List.mem_flatMap.mpr ⟨(kind, k), hk, List.mem_map_of_mem hc⟩
    have heq : (Schema.node id location draft (.object keywords extra)).weight =
        1 + (keywords.flatMap fun entry => entry.2.nodes.map weight).sum := by
      rw [weight, descend_node]
      simp only [Schema.body, Body.map, Entries.mapValues, List.flatMap_map,
        Keyword.nodes_map, List.map_map]
      rfl
    have hle := List.le_sum_of_mem hmem
    omega

theorem body_map_congr {τ : Type} {f g : Schema → τ} {s : Schema}
    (h : ∀ kind k child, (kind, k) ∈ s.keywords → child ∈ k.nodes → f child = g child) :
    s.body.map f = s.body.map g := by
  obtain ⟨id, location, draft, body⟩ := s
  cases body with
  | boolean | reference => rfl
  | object keywords extra =>
    simp only [body, Body.map, Entries.mapValues]
    rw [List.map_congr_left]
    intro entry hentry
    rw [Keyword.map_congr fun child hc => h entry.1 entry.2 child hentry hc]

/-- A property of nodes that passes from the nested nodes to the node holds everywhere. -/
theorem induction {motive : Schema → Prop}
    (step : ∀ s, (∀ kind k child, (kind, k) ∈ s.keywords → child ∈ k.nodes → motive child) →
      motive s) (s : Schema) : motive s := by
  have hweight : ∀ n, ∀ s : Schema, s.weight < n → motive s := by
    intro n
    induction n with
    | zero => exact fun s h => absurd h (Nat.not_lt_zero _)
    | succ n ih =>
      intro s h
      apply step
      intro kind k child hk hc
      exact ih child (Nat.lt_of_lt_of_le (weight_of_mem hk hc) (Nat.le_of_lt_succ h))
  exact hweight _ s (Nat.lt_succ_self _)

end Schema
end SchemaAtlas
