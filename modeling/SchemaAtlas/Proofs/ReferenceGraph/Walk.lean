import SchemaAtlas.Proofs.ReferenceGraph.Components
import SchemaAtlas.Proofs.Graph.Settled
import Mathlib.Data.List.Perm.Subperm

/-!
# The walk through a schema

`ReferenceGraph.Draws` is the walk as a relation, with no bound on how deep visits nest: what leads
on from a node is drawn entry by entry, and all that a new node leads to before the edge to it. The
function takes a number of steps; `visits_of_visit` says that it draws what the relation says if
there are as many steps as there are URIs left to meet.
-/

namespace SchemaAtlas

/-- What leads on from a node: the target of a reference, or all schemas that keywords hold. -/
def Store.links (st : Store) (s : Schema) : List (EdgeKind × Schema) :=
  match s.reference? with
  | some r => (Store.target r st).1.toList.map fun t => (.refersTo, t)
  | none => s.children.map fun (kind, _, child) => (.holds kind, child)

namespace ReferenceGraph

/-- The graph with a new node. -/
def insert (g : ReferenceGraph) (uri : String) : ReferenceGraph :=
  { g with nodes := g.nodes.push uri }

/-- The graph with a new edge. -/
def join (g : ReferenceGraph) (source target : Nat) (kind : EdgeKind) : ReferenceGraph :=
  { g with edges := g.edges.push ⟨source, target, kind⟩ }

/-- Drawing what leads on from a node, entry by entry. -/
inductive Draws (st : Store) :
    ReferenceGraph → Nat → List (EdgeKind × Schema) → ReferenceGraph → Prop
  | done {g : ReferenceGraph} {source : Nat} : Draws st g source [] g
  /-- An edge to a node that was met before. -/
  | met {g g' : ReferenceGraph} {source target : Nat} {kind : EdgeKind} {child : Schema}
      {rest : List (EdgeKind × Schema)} :
      g.find? child.uri.text = some target → Draws st (g.join source target kind) source rest g' →
      Draws st g source ((kind, child) :: rest) g'
  /-- A new node with all that it leads to, and the edge to it. -/
  | new {g g₁ g' : ReferenceGraph} {source : Nat} {kind : EdgeKind} {child : Schema}
      {rest : List (EdgeKind × Schema)} :
      g.find? child.uri.text = none →
      Draws st (g.insert child.uri.text) g.nodes.size (st.links child) g₁ →
      Draws st (g₁.join source g.nodes.size kind) source rest g' →
      Draws st g source ((kind, child) :: rest) g'

/-- Visiting a schema: nothing is done if its URI was met before. -/
inductive Visits (st : Store) (g : ReferenceGraph) (s : Schema) : ReferenceGraph → Nat → Prop
  | met {node : Nat} : g.find? s.uri.text = some node → Visits st g s g node
  | new {g' : ReferenceGraph} : g.find? s.uri.text = none →
      Draws st (g.insert s.uri.text) g.nodes.size (st.links s) g' →
      Visits st g s g' g.nodes.size

variable {st : Store} {g g₁ g' : ReferenceGraph} {s child : Schema} {source target : Nat}
variable {kind : EdgeKind} {rest : List (EdgeKind × Schema)}

theorem Draws.of_visits (h : Visits st g child g₁ target)
    (hrest : Draws st (g₁.join source target kind) source rest g') :
    Draws st g source ((kind, child) :: rest) g' := by
  cases h with
  | met hfind => exact .met hfind hrest
  | new hfind hdraws => exact .new hfind hdraws hrest

/-! ## What a walk keeps -/

theorem find?_some {uri : String} {node : Nat} (h : g.find? uri = some node) :
    g.nodes[node]? = some uri := by
  obtain ⟨hlt, heq, _⟩ := Array.findIdx?_eq_some_iff_getElem.mp h
  rw [Array.getElem?_eq_getElem hlt, eq_of_beq heq]

theorem find?_none {uri : String} (h : g.find? uri = none) : uri ∉ g.nodes.toList := by
  intro hmem
  have hne := Array.findIdx?_eq_none_iff.mp h uri (Array.mem_def.mpr hmem)
  simp at hne

theorem lt_of_find? {uri : String} {node : Nat} (h : g.find? uri = some node) :
    node < g.nodes.size :=
  (Array.getElem?_eq_some_iff.mp (find?_some h)).1

theorem WellFormed.insert {uri : String} (h : g.WellFormed) (hnew : uri ∉ g.nodes.toList) :
    (g.insert uri).WellFormed := by
  refine ⟨?_, fun e he => ?_, fun e he => ?_⟩
  · rw [ReferenceGraph.insert, Array.toList_push, List.nodup_append]
    refine ⟨h.nodup, List.nodup_singleton _, ?_⟩
    rintro a ha b hb rfl
    exact hnew (List.mem_singleton.mp hb ▸ ha)
  · rw [ReferenceGraph.insert, Array.size_push]
    exact Nat.lt_succ_of_lt (h.source e he)
  · rw [ReferenceGraph.insert, Array.size_push]
    exact Nat.lt_succ_of_lt (h.target e he)

theorem WellFormed.join (h : g.WellFormed) (hs : source < g.nodes.size)
    (ht : target < g.nodes.size) : (g.join source target kind).WellFormed := by
  refine ⟨h.nodup, fun e he => ?_, fun e he => ?_⟩ <;>
    rw [ReferenceGraph.join, Array.toList_push, List.mem_append, List.mem_singleton] at he <;>
    rcases he with he | rfl
  · exact h.source e he
  · exact hs
  · exact h.target e he
  · exact ht

/-- Nodes keep their numbers. -/
theorem Draws.extends {links : List (EdgeKind × Schema)} (h : Draws st g source links g') :
    g.nodes.toList <+: g'.nodes.toList := by
  induction h with
  | done => exact List.prefix_rfl
  | met _ _ ih => exact ih
  | new _ _ _ ih₁ ih₂ =>
    refine List.IsPrefix.trans ?_ (ih₁.trans ih₂)
    rw [ReferenceGraph.insert, Array.toList_push]
    exact List.prefix_append _ _

theorem Draws.size_le {links : List (EdgeKind × Schema)} (h : Draws st g source links g') :
    g.nodes.size ≤ g'.nodes.size := by
  simpa using h.extends.length_le

theorem size_insert (g : ReferenceGraph) (uri : String) :
    (g.insert uri).nodes.size = g.nodes.size + 1 := by
  simp [ReferenceGraph.insert]

theorem Draws.wellFormed {links : List (EdgeKind × Schema)} (h : Draws st g source links g')
    (hg : g.WellFormed) (hs : source < g.nodes.size) : g'.WellFormed := by
  induction h with
  | done => exact hg
  | met hfind _ ih => exact ih (hg.join hs (lt_of_find? hfind)) hs
  | @new g g₁ _ source _ child _ hfind hdraws _ ih₁ ih₂ =>
    have hsize : g.nodes.size < g₁.nodes.size := by
      have hle := hdraws.size_le
      rw [size_insert] at hle
      exact hle
    have hg₁ := ih₁ (hg.insert (find?_none hfind)) (by rw [size_insert]; exact Nat.lt_succ_self _)
    exact ih₂ (hg₁.join (Nat.lt_trans hs hsize) hsize) (Nat.lt_trans hs hsize)

/-- The nodes that are new have the URIs of nodes in any set that what leads on stays in. -/
theorem Draws.mem_nodes {links : List (EdgeKind × Schema)} (h : Draws st g source links g')
    {R : Schema → Prop} (hR : ∀ s, R s → ∀ link ∈ st.links s, R link.2)
    (hlinks : ∀ link ∈ links, R link.2) :
    ∀ u ∈ g'.nodes.toList, u ∈ g.nodes.toList ∨ ∃ t, R t ∧ t.uri.text = u := by
  induction h with
  | done => exact fun u hu => Or.inl hu
  | met _ _ ih => exact ih fun link hl => hlinks link (List.mem_cons_of_mem _ hl)
  | @new g _ _ _ _ child _ _ _ _ ih₁ ih₂ =>
    intro u hu
    have hchild : R child := hlinks _ List.mem_cons_self
    rcases ih₂ (fun link hl => hlinks link (List.mem_cons_of_mem _ hl)) u hu with hu | hu
    · rcases ih₁ (hR child hchild) u hu with hu | hu
      · rw [ReferenceGraph.insert, Array.toList_push, List.mem_append, List.mem_singleton] at hu
        rcases hu with hu | rfl
        · exact Or.inl hu
        · exact Or.inr ⟨child, hchild, rfl⟩
      · exact Or.inr hu
    · exact Or.inr hu

/-! ## The function -/

theorem bind_eq {α β : Type} {x : WalkM α} {f : α → WalkM β} {w w' : Walk} {a : α}
    (h : x w = (a, w')) : (x >>= f) w = f a w' := by
  simp only [bind, StateT.bind, h]

theorem get_eq (w : Walk) : (get : WalkM Walk) w = (w, w) := rfl

theorem addNode_eq {uri : String} :
    addNode uri ⟨st, g⟩ = (g.nodes.size, ⟨st, g.insert uri⟩) := rfl

theorem addEdge_eq {w : Walk} : addEdge ⟨source, target, kind⟩ w =
    ((), { w with graph := w.graph.join source target kind }) := rfl

section

variable {steps node : Nat}

theorem visit_of_met (h : g.find? s.uri.text = some node) :
    visit steps s ⟨st, g⟩ = (node, ⟨st, g⟩) := by
  unfold visit
  rw [bind_eq (get_eq _)]
  simp only [h]
  rfl

theorem visit_zero (h : g.find? s.uri.text = none) :
    visit 0 s ⟨st, g⟩ = (g.nodes.size, ⟨st, g.insert s.uri.text⟩) := by
  unfold visit
  rw [bind_eq (get_eq _)]
  simp only [h]
  rfl

theorem targetOf_eq {r : Reference} {found : Option Schema} {st' : Store}
    (h : Store.target r st = (found, st')) : targetOf r ⟨st, g⟩ = (found, ⟨st', g⟩) := by
  change ((Store.target r st).1, (⟨(Store.target r st).2, g⟩ : Walk)) = _
  rw [h]

theorem visit_of_reference {r : Reference} {t : Schema} {st' : Store}
    (h : g.find? s.uri.text = none) (hr : s.reference? = some r)
    (ht : Store.target r st = (some t, st')) {w : Walk}
    (hv : visit steps t ⟨st', g.insert s.uri.text⟩ = (target, w)) :
    visit (steps + 1) s ⟨st, g⟩ =
      (g.nodes.size, { w with graph := w.graph.join g.nodes.size target .refersTo }) := by
  unfold visit
  rw [bind_eq (get_eq _)]
  simp only [h]
  rw [bind_eq addNode_eq]
  simp only [hr]
  rw [bind_eq (targetOf_eq ht)]
  dsimp only
  rw [bind_eq hv]
  rfl

theorem visit_of_nowhere {r : Reference} {st' : Store} (h : g.find? s.uri.text = none)
    (hr : s.reference? = some r) (ht : Store.target r st = (none, st')) :
    visit (steps + 1) s ⟨st, g⟩ = (g.nodes.size, ⟨st', g.insert s.uri.text⟩) := by
  unfold visit
  rw [bind_eq (get_eq _)]
  simp only [h]
  rw [bind_eq addNode_eq]
  simp only [hr]
  rw [bind_eq (targetOf_eq ht)]
  rfl

theorem visit_of_children (h : g.find? s.uri.text = none) (hr : s.reference? = none)
    {w : Walk} (hv : visitChildren (visit steps) g.nodes.size s.children
      ⟨st, g.insert s.uri.text⟩ = ((), w)) :
    visit (steps + 1) s ⟨st, g⟩ = (g.nodes.size, w) := by
  unfold visit
  rw [bind_eq (get_eq _)]
  simp only [h]
  rw [bind_eq addNode_eq]
  simp only [hr]
  rw [bind_eq hv]
  rfl

theorem visitChildren_cons {visit : Schema → WalkM Nat} (source : Nat) (kind : KeywordKind)
    (segment : Option String) (rest : List (KeywordKind × Option String × Schema))
    {w w₁ : Walk} (hv : visit child w = (target, w₁)) :
    visitChildren visit source ((kind, segment, child) :: rest) w =
      visitChildren visit source rest
        { w₁ with graph := w₁.graph.join source target (.holds kind) } := by
  rw [visitChildren, bind_eq hv, bind_eq addEdge_eq]

end

/-! ## Drawn graphs -/

/-- What any visit leaves of a well-formed graph, be there enough steps or not. -/
structure Extends (g g' : ReferenceGraph) (node : Nat) : Prop where
  wellFormed : g'.WellFormed
  node_lt : node < g'.nodes.size
  size_le : g.nodes.size ≤ g'.nodes.size

theorem Extends.join (h : Extends g g₁ target) (hs : source < g.nodes.size) :
    (g₁.join source target kind).WellFormed :=
  h.wellFormed.join (Nat.lt_of_lt_of_le hs h.size_le) h.node_lt

theorem wellFormed_of_visitChildren {visit : Schema → WalkM Nat}
    (hv : ∀ {s : Schema} {w : Walk}, w.graph.WellFormed →
      Extends w.graph (visit s w).2.graph (visit s w).1)
    (children : List (KeywordKind × Option String × Schema)) {w : Walk}
    (hw : w.graph.WellFormed) (hs : source < w.graph.nodes.size) :
    (visitChildren visit source children w).2.graph.WellFormed ∧
      w.graph.nodes.size ≤ (visitChildren visit source children w).2.graph.nodes.size := by
  induction children generalizing w with
  | nil => exact ⟨hw, Nat.le_refl _⟩
  | cons entry rest ih =>
    obtain ⟨kind, segment, child⟩ := entry
    have hchild := hv (s := child) hw
    rw [visitChildren_cons source kind segment rest
      (show visit child w = ((visit child w).1, (visit child w).2) from rfl)]
    obtain ⟨hrest, hsize⟩ := ih (w := { (visit child w).2 with
        graph := (visit child w).2.graph.join source (visit child w).1 (.holds kind) })
      (hchild.join hs) (Nat.lt_of_lt_of_le hs hchild.size_le)
    exact ⟨hrest, Nat.le_trans hchild.size_le hsize⟩

theorem WellFormed.extends_insert (h : g.WellFormed) {uri : String}
    (hfind : g.find? uri = none) : Extends g (g.insert uri) g.nodes.size where
  wellFormed := h.insert (find?_none hfind)
  node_lt := by
    rw [size_insert]
    exact Nat.lt_succ_self _
  size_le := by
    rw [size_insert]
    exact Nat.le_succ _

theorem extends_of_visit (steps : Nat) {s : Schema} {w : Walk} (hw : w.graph.WellFormed) :
    Extends w.graph (visit steps s w).2.graph (visit steps s w).1 := by
  obtain ⟨st, g⟩ := w
  induction steps generalizing st g s with
  | zero =>
    cases hfind : g.find? s.uri.text with
    | some node =>
      rw [visit_of_met hfind]
      exact ⟨hw, lt_of_find? hfind, Nat.le_refl _⟩
    | none =>
      rw [visit_zero hfind]
      exact hw.extends_insert hfind
  | succ steps ih =>
    cases hfind : g.find? s.uri.text with
    | some node =>
      rw [visit_of_met hfind]
      exact ⟨hw, lt_of_find? hfind, Nat.le_refl _⟩
    | none =>
      have hnew := hw.extends_insert hfind
      cases hr : s.reference? with
      | none =>
        obtain ⟨hwf, hsize⟩ := wellFormed_of_visitChildren (fun hw => ih _ _ hw) s.children
          (w := ⟨st, g.insert s.uri.text⟩) hnew.wellFormed hnew.node_lt
        rw [visit_of_children hfind hr rfl]
        exact ⟨hwf, Nat.lt_of_lt_of_le hnew.node_lt hsize, Nat.le_trans hnew.size_le hsize⟩
      | some r =>
        cases ht : Store.target r st with
        | mk found st' =>
          cases found with
          | none =>
            rw [visit_of_nowhere hfind hr ht]
            exact hnew
          | some t =>
            have ht' := ih (s := t) st' _ hnew.wellFormed
            rw [visit_of_reference hfind hr ht rfl]
            exact ⟨ht'.join hnew.node_lt, Nat.lt_of_lt_of_le hnew.node_lt ht'.size_le,
              Nat.le_trans hnew.size_le ht'.size_le⟩

theorem wellFormed_empty : ReferenceGraph.empty.WellFormed :=
  ⟨List.nodup_nil, fun _ he => (nomatch he), fun _ he => (nomatch he)⟩

/-- Every graph that is drawn has one node for each URI, and edges between its nodes. -/
theorem wellFormed_ofSchema (root : Schema) (st : Store) : (ofSchema root st).1.WellFormed :=
  (extends_of_visit (w := ⟨st, .empty⟩) _ wellFormed_empty).wellFormed

/-! ## Enough steps -/

/-- A set of schemas that a walk can stay in: what leads on from its members belongs to it, to ask
for targets changes nothing, and there are finitely many URIs. -/
structure Walkable (st : Store) (R : Schema → Prop) (names : List String) : Prop where
  links : ∀ s, R s → ∀ link ∈ st.links s, R link.2
  target : ∀ s, R s → ∀ r, s.reference? = some r → ∃ t, Store.target r st = (some t, st)
  names : ∀ s, R s → s.uri.text ∈ names

variable {R : Schema → Prop} {names : List String}

/-- A graph as a walk leaves it that has met URIs of some names only. -/
structure Partial (g : ReferenceGraph) (names : List String) : Prop where
  wellFormed : g.WellFormed
  nodes : ∀ u ∈ g.nodes.toList, u ∈ names

theorem Partial.insert (h : g.Partial names) {uri : String} (hfind : g.find? uri = none)
    (hname : uri ∈ names) : (g.insert uri).Partial names := by
  refine ⟨h.wellFormed.insert (find?_none hfind), fun u hu => ?_⟩
  rw [ReferenceGraph.insert, Array.toList_push, List.mem_append, List.mem_singleton] at hu
  rcases hu with hu | rfl
  · exact h.nodes u hu
  · exact hname

/-- Each URI is met once, so there are no more nodes than names. -/
theorem Partial.size_le (h : g.Partial names) : g.nodes.size ≤ names.length := by
  simpa using (h.wellFormed.nodup.subperm h.nodes).length_le

theorem Walkable.partial_of_draws (hR : Walkable st R names) {links : List (EdgeKind × Schema)}
    (h : Draws st g source links g') (hlinks : ∀ link ∈ links, R link.2) (hg : g.Partial names)
    (hs : source < g.nodes.size) : g'.Partial names := by
  refine ⟨h.wellFormed hg.wellFormed hs, fun u hu => ?_⟩
  rcases h.mem_nodes hR.links hlinks u hu with hu | ⟨t, ht, rfl⟩
  · exact hg.nodes u hu
  · exact hR.names t ht

/-- What a visit leaves: a graph of its kind, with the node of the schema and all nodes before. -/
theorem Walkable.partial_of_visits (hR : Walkable st R names) (h : Visits st g s g' target)
    (hs : R s) (hg : g.Partial names) :
    g'.Partial names ∧ target < g'.nodes.size ∧ g.nodes.size ≤ g'.nodes.size := by
  cases h with
  | met hfind => exact ⟨hg, lt_of_find? hfind, Nat.le_refl _⟩
  | new hfind hdraws =>
    have hle := hdraws.size_le
    rw [size_insert] at hle
    refine ⟨?_, hle, Nat.le_of_succ_le hle⟩
    exact hR.partial_of_draws hdraws (hR.links s hs) (hg.insert hfind (hR.names s hs))
      (by rw [size_insert]; exact Nat.lt_succ_self _)

/-- A function that visits as the relation says while some names are left. -/
def Follows (st : Store) (R : Schema → Prop) (names : List String) (left : Nat)
    (visit : Schema → WalkM Nat) : Prop :=
  ∀ {g : ReferenceGraph} {s : Schema}, R s → g.Partial names →
    names.length ≤ left + g.nodes.size →
    ∃ g' node, visit s ⟨st, g⟩ = (node, ⟨st, g'⟩) ∧ Visits st g s g' node

theorem Follows.children {left : Nat} {visit : Schema → WalkM Nat}
    (hv : Follows st R names left visit) (hR : Walkable st R names)
    {children : List (KeywordKind × Option String × Schema)}
    (hchildren : ∀ entry ∈ children, R entry.2.2) (hg : g.Partial names)
    (hs : source < g.nodes.size) (hleft : names.length ≤ left + g.nodes.size) :
    ∃ g', visitChildren visit source children ⟨st, g⟩ = ((), ⟨st, g'⟩) ∧
      Draws st g source (children.map fun (kind, _, child) => (.holds kind, child)) g' := by
  induction children generalizing g with
  | nil => exact ⟨g, rfl, .done⟩
  | cons entry rest ih =>
    obtain ⟨kind, segment, child⟩ := entry
    obtain ⟨hchild, hrest⟩ := List.forall_mem_cons.mp hchildren
    obtain ⟨g₁, target, heq, hvisits⟩ := hv hchild hg hleft
    obtain ⟨hg₁, htarget, hsize⟩ := hR.partial_of_visits hvisits hchild hg
    have hs₁ : source < g₁.nodes.size := Nat.lt_of_lt_of_le hs hsize
    have hjoined : (g₁.join source target (.holds kind)).Partial names :=
      ⟨hg₁.wellFormed.join hs₁ htarget, hg₁.nodes⟩
    obtain ⟨g', hreq, hdraws⟩ := ih hrest hjoined hs₁
      (Nat.le_trans hleft (Nat.add_le_add_left hsize left))
    exact ⟨g', (visitChildren_cons source kind segment rest heq).trans hreq,
      .of_visits hvisits hdraws⟩

/-- With steps for the names that are left, the function visits as the relation says. -/
theorem Walkable.follows (hR : Walkable st R names) (steps : Nat) :
    Follows st R names steps (visit steps) := by
  induction steps with
  | zero =>
    intro g s hs hg hleft
    cases hfind : g.find? s.uri.text with
    | some node => exact ⟨g, node, visit_of_met hfind, .met hfind⟩
    | none =>
      have hroom := (hg.insert hfind (hR.names s hs)).size_le
      rw [size_insert] at hroom
      omega
  | succ steps ih =>
    intro g s hs hg hleft
    cases hfind : g.find? s.uri.text with
    | some node => exact ⟨g, node, visit_of_met hfind, .met hfind⟩
    | none =>
      have hinsert := hg.insert hfind (hR.names s hs)
      have hleft' : names.length ≤ steps + (g.insert s.uri.text).nodes.size := by
        rw [size_insert]
        omega
      have hnode : g.nodes.size < (g.insert s.uri.text).nodes.size := by
        rw [size_insert]
        exact Nat.lt_succ_self _
      cases hr : s.reference? with
      | some r =>
        obtain ⟨t, ht⟩ := hR.target s hs r hr
        have hlinks : st.links s = [(.refersTo, t)] := by simp [Store.links, hr, ht]
        have hRt : R t := hR.links s hs (.refersTo, t) (by simp [hlinks])
        obtain ⟨g₁, target, heq, hvisits⟩ := ih hRt hinsert hleft'
        refine ⟨_, _, visit_of_reference hfind hr ht heq, .new hfind ?_⟩
        rw [hlinks]
        exact .of_visits hvisits .done
      | none =>
        have hlinks : st.links s =
            s.children.map fun (kind, _, child) => (.holds kind, child) := by
          simp [Store.links, hr]
        have hchildren : ∀ entry ∈ s.children, R entry.2.2 := by
          intro entry he
          exact hR.links s hs (.holds entry.1, entry.2.2)
            (hlinks ▸ List.mem_map.mpr ⟨entry, he, rfl⟩)
        obtain ⟨g', heq, hdraws⟩ := Follows.children ih hR hchildren hinsert hnode hleft'
        exact ⟨g', _, visit_of_children hfind hr heq, .new hfind (hlinks ▸ hdraws)⟩

end ReferenceGraph

end SchemaAtlas
