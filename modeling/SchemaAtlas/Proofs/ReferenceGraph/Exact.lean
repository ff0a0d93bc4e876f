import SchemaAtlas.Proofs.ReferenceGraph.Groups
import SchemaAtlas.Proofs.ReferenceGraph.Walk
import SchemaAtlas.Proofs.Graph.Resolved
import SchemaAtlas.Proofs.Schema.Nesting

/-!
# Exact reference graphs

While a walk draws what leads on from a node, the edges that leave the node are the entries that
were drawn, the edges that leave other old nodes stay, and each new node has all edges of a schema
with its URI (`ReferenceGraph.Draws.drawn`). So a schema whose nodes with one URI all lead on alike
has a reference graph without gaps: one node for each URI that it reaches, and from it the edges of
any schema with this URI. In a loaded schema the references lead to nodes of the store, so the
walk meets no more URIs than there are schemas nested in the store's nodes and in its own.
-/

namespace SchemaAtlas

open Relation

namespace Store

/-- What leads on from a node, by URI. -/
def linkUris (st : Store) (s : Schema) : List (EdgeKind × String) :=
  (st.links s).map fun link => (link.1, link.2.uri.text)

/-- Whether a node leads on to another one in any number of steps. -/
def LeadsOn (st : Store) : Schema → Schema → Prop :=
  ReflTransGen fun s t => ∃ kind, (kind, t) ∈ st.links s

/-- Nodes with one URI lead on alike. -/
def Uniform (st : Store) (root : Schema) : Prop :=
  ∀ t u, st.LeadsOn root t → st.LeadsOn root u → t.uri.text = u.uri.text →
    st.linkUris t = st.linkUris u

end Store

namespace ReferenceGraph

/-- The edges that leave a node, in the order in which they were added. -/
def leaving (g : ReferenceGraph) (i : Nat) : List (EdgeKind × String) :=
  (g.edges.toList.filter (·.source = i)).map fun e => (e.kind, g.uriOf e.target)

/-- The edges that leave the node with a URI. -/
def edgesFrom (g : ReferenceGraph) (uri : String) : List (EdgeKind × String) :=
  (g.edges.toList.filter (g.uriOf ·.source = uri)).map fun e => (e.kind, g.uriOf e.target)

/-- A graph that has exactly what a schema leads on to. -/
structure Exact (st : Store) (root : Schema) (g : ReferenceGraph) : Prop where
  /-- Each URI has one node, and edges are between nodes. -/
  wellFormed : g.WellFormed
  nodes : ∀ u, u ∈ g.nodes.toList ↔ ∃ t, st.LeadsOn root t ∧ t.uri.text = u
  /-- From a node leads one edge for each entry of a schema with its URI. -/
  edges : ∀ t, st.LeadsOn root t → g.edgesFrom t.uri.text = st.linkUris t
  outgoing : ∀ t, st.LeadsOn root t →
    (g.outgoing t.uri.text).Perm ((st.linkUris t).map Prod.swap) ∧
      (g.outgoing t.uri.text).Pairwise fun a b => ¬b.1 < a.1
  elsewhere : ∀ u, u ∉ g.nodes.toList → g.outgoing u = []

variable {st : Store} {g g₁ g' : ReferenceGraph} {source target : Nat}

/-! ## Edges by URI -/

theorem uriOf_extended (h : g.nodes.toList <+: g'.nodes.toList) {i : Nat}
    (hi : i < g.nodes.size) : g'.uriOf i = g.uriOf i := by
  have hsame : g'.nodes[i]? = g.nodes[i]? := by
    rw [← Array.getElem?_toList, ← Array.getElem?_toList]
    obtain ⟨rest, hrest⟩ := h
    rw [← hrest, List.getElem?_append_left (by simpa using hi)]
  rw [uriOf, uriOf, hsame]

theorem uriOf_insert (g : ReferenceGraph) (uri : String) :
    (g.insert uri).uriOf g.nodes.size = uri := by
  simp [uriOf, ReferenceGraph.insert]

theorem leaving_insert (h : g.WellFormed) (uri : String) (i : Nat) :
    (g.insert uri).leaving i = g.leaving i := by
  refine List.map_congr_left fun e he => ?_
  have hextended : g.nodes.toList <+: (g.insert uri).nodes.toList := by
    rw [ReferenceGraph.insert, Array.toList_push]
    exact List.prefix_append _ _
  rw [uriOf_extended hextended (h.target e (List.mem_filter.mp he).1)]

/-- No edges leave a number that is yet to be given. -/
theorem leaving_of_size_le (h : g.WellFormed) {i : Nat} (hi : g.nodes.size ≤ i) :
    g.leaving i = [] := by
  have hnone : g.edges.toList.filter (·.source = i) = [] := by
    rw [List.filter_eq_nil_iff]
    intro e he heq
    have := h.source e he
    have := of_decide_eq_true heq
    omega
  rw [leaving, hnone, List.map_nil]

theorem leaving_join_self (kind : EdgeKind) :
    (g.join source target kind).leaving source =
      g.leaving source ++ [(kind, g.uriOf target)] := by
  simp [leaving, ReferenceGraph.join, uriOf]

theorem leaving_join_of_ne (kind : EdgeKind) {i : Nat} (hi : i ≠ source) :
    (g.join source target kind).leaving i = g.leaving i := by
  simp [leaving, ReferenceGraph.join, uriOf, hi.symm]

/-- A new node has the edges of some schema with its URI. -/
def DrawnFrom (st : Store) (R : Schema → Prop) (g : ReferenceGraph) (i : Nat) : Prop :=
  ∃ t, R t ∧ g.uriOf i = t.uri.text ∧ g.leaving i = st.linkUris t

/-- What a walk adds: the entries at their source, and new nodes with all their edges. -/
structure Drawn (st : Store) (R : Schema → Prop) (g : ReferenceGraph) (source : Nat)
    (links : List (EdgeKind × Schema)) (g' : ReferenceGraph) : Prop where
  entries : g'.leaving source =
    g.leaving source ++ links.map fun link => (link.1, link.2.uri.text)
  old : ∀ i < g.nodes.size, i ≠ source → g'.leaving i = g.leaving i
  new : ∀ i, g.nodes.size ≤ i → i < g'.nodes.size → DrawnFrom st R g' i

theorem Draws.drawn {R : Schema → Prop} (hR : ∀ s, R s → ∀ link ∈ st.links s, R link.2)
    {links : List (EdgeKind × Schema)} (h : Draws st g source links g')
    (hlinks : ∀ link ∈ links, R link.2) (hg : g.WellFormed) (hs : source < g.nodes.size) :
    Drawn st R g source links g' := by
  induction h with
  | done => exact ⟨by simp, fun _ _ _ => rfl, fun i hi hi' => by omega⟩
  | @met g _ source target kind child rest hfind hdraws ih =>
    obtain ⟨_, hrest⟩ := List.forall_mem_cons.mp hlinks
    obtain ⟨hsource, hold, hnew⟩ := ih hrest (hg.join hs (lt_of_find? hfind)) hs
    have huri : g.uriOf target = child.uri.text := by
      rw [uriOf, find?_some hfind, Option.getD_some]
    refine ⟨?_, fun i hi hne => ?_, hnew⟩
    · rw [hsource, leaving_join_self, huri]
      simp
    · rw [hold i hi hne, leaving_join_of_ne kind hne]
  | @new g g₁ g' source kind child rest hfind hchild hdraws ih₁ ih₂ =>
    obtain ⟨hRchild, hrest⟩ := List.forall_mem_cons.mp hlinks
    have hinsert := hg.extends_insert hfind
    have hwf₁ := hchild.wellFormed hinsert.wellFormed hinsert.node_lt
    have hsize₁ := hchild.size_le
    rw [size_insert] at hsize₁
    have hn₁ : g.nodes.size < g₁.nodes.size := hsize₁
    have hs₁ : source < g₁.nodes.size := Nat.lt_trans hs hn₁
    obtain ⟨hsource₁, hold₁, hnew₁⟩ := ih₁ (hR child hRchild) hinsert.wellFormed hinsert.node_lt
    obtain ⟨hsource₂, hold₂, hnew₂⟩ := ih₂ hrest (hwf₁.join hs₁ hn₁) hs₁
    have huri : g₁.uriOf g.nodes.size = child.uri.text := by
      rw [uriOf_extended hchild.extends hinsert.node_lt, uriOf_insert]
    have hkept : ∀ i < g.nodes.size, g₁.leaving i = g.leaving i := by
      intro i hi
      rw [hold₁ i (by rw [size_insert]; omega) (Nat.ne_of_lt hi), leaving_insert hg]
    -- between the two walks only the source gets an edge
    have hlater : ∀ i < g₁.nodes.size, i ≠ source →
        g'.leaving i = g₁.leaving i ∧ g'.uriOf i = g₁.uriOf i := by
      intro i hi hne
      exact ⟨(hold₂ i hi hne).trans (leaving_join_of_ne kind hne), uriOf_extended hdraws.extends hi⟩
    refine ⟨?_, fun i hi hne => ?_, fun i hi hi' => ?_⟩
    · rw [hsource₂, leaving_join_self, hkept source hs, huri]
      simp
    · rw [(hlater i (Nat.lt_trans hi hn₁) hne).1, hkept i hi]
    · have hne : i ≠ source := by omega
      by_cases hi₁ : i < g₁.nodes.size
      · obtain ⟨hleaving, huri'⟩ := hlater i hi₁ hne
        by_cases hnode : i = g.nodes.size
        · subst hnode
          refine ⟨child, hRchild, huri'.trans huri, ?_⟩
          rw [hleaving, hsource₁, leaving_insert hg, leaving_of_size_le hg (Nat.le_refl _)]
          rfl
        · obtain ⟨t, ht, htu, htl⟩ := hnew₁ i (by rw [size_insert]; omega) hi₁
          exact ⟨t, ht, huri'.trans htu, hleaving.trans htl⟩
      · exact hnew₂ i (Nat.le_of_not_lt hi₁) hi'

/-! ## Outgoing edges -/

theorem insertByUri_perm (edge : String × EdgeKind) (list : List (String × EdgeKind)) :
    (insertByUri edge list).Perm (edge :: list) := by
  induction list with
  | nil => exact .refl _
  | cons other rest ih =>
    rw [insertByUri]
    split
    · exact .refl _
    · exact (ih.cons other).trans (.swap edge other rest)

theorem sorted_insertByUri {edge : String × EdgeKind} {list : List (String × EdgeKind)}
    (h : list.Pairwise fun a b => ¬b.1 < a.1) :
    (insertByUri edge list).Pairwise fun a b => ¬b.1 < a.1 := by
  induction list with
  | nil => exact List.pairwise_singleton _ _
  | cons other rest ih =>
    obtain ⟨hfirst, hrest⟩ := List.pairwise_cons.mp h
    rw [insertByUri]
    split
    · rename_i hlt
      refine List.pairwise_cons.mpr ⟨fun b hb => ?_, h⟩
      rcases List.mem_cons.mp hb with rfl | hb
      · exact String.lt_asymm hlt
      · exact fun hlt' => hfirst b hb (String.lt_trans hlt' hlt)
    · rename_i hlt
      refine List.pairwise_cons.mpr ⟨fun b hb => ?_, ih hrest⟩
      rcases List.mem_cons.mp ((insertByUri_perm edge rest).mem_iff.mp hb) with rfl | hb
      · exact hlt
      · exact hfirst b hb

theorem foldl_insertByUri (edges sorted : List (String × EdgeKind))
    (h : sorted.Pairwise fun a b => ¬b.1 < a.1) :
    (edges.foldl (fun sorted edge => insertByUri edge sorted) sorted).Perm (edges ++ sorted) ∧
      (edges.foldl (fun sorted edge => insertByUri edge sorted) sorted).Pairwise
        fun a b => ¬b.1 < a.1 := by
  induction edges generalizing sorted with
  | nil => exact ⟨.refl _, h⟩
  | cons edge rest ih =>
    obtain ⟨hperm, hsorted⟩ := ih (insertByUri edge sorted) (sorted_insertByUri h)
    refine ⟨hperm.trans (((insertByUri_perm edge sorted).append_left rest).trans ?_), hsorted⟩
    exact List.perm_middle

/-- The edges that leave a node, in the order of the URIs that they lead to. -/
theorem outgoing_spec {u : String} {i : Nat} (hfind : g.find? u = some i) :
    (g.outgoing u).Perm ((g.leaving i).map Prod.swap) ∧
      (g.outgoing u).Pairwise fun a b => ¬b.1 < a.1 := by
  obtain ⟨hperm, hsorted⟩ := foldl_insertByUri
    (((g.edges.toList.filter (·.source = i)).reverse).map fun e => (g.uriOf e.target, e.kind)) []
    .nil
  have hout : g.outgoing u = (((g.edges.toList.filter (·.source = i)).reverse).map fun e =>
      (g.uriOf e.target, e.kind)).foldl (fun sorted edge => insertByUri edge sorted) [] := by
    rw [outgoing, hfind]
  rw [hout]
  refine ⟨hperm.trans ?_, hsorted⟩
  rw [List.append_nil, leaving, List.map_map]
  exact (List.reverse_perm _).map _

/-! ## Exactness -/

theorem find?_of_getElem? (h : g.WellFormed) {u : String} {i : Nat} (hi : g.nodes[i]? = some u) :
    g.find? u = some i := by
  cases hfind : g.find? u with
  | none =>
    refine absurd ?_ (find?_none hfind)
    rw [← Array.getElem?_toList] at hi
    exact List.mem_of_getElem? hi
  | some j => rw [h.eq_of_getElem? (find?_some hfind) hi]

theorem edgesFrom_eq (h : g.WellFormed) {u : String} {i : Nat} (hi : g.nodes[i]? = some u) :
    g.edgesFrom u = g.leaving i := by
  have hsame : ∀ e ∈ g.edges.toList, (g.uriOf e.source = u ↔ e.source = i) := by
    intro e he
    have hsource := getElem?_uriOf (h.source e he)
    constructor
    · intro heq
      exact h.eq_of_getElem? (heq ▸ hsource) hi
    · rintro rfl
      exact Option.some.inj (hsource.symm.trans hi)
  rw [edgesFrom, leaving, List.filter_congr fun e he => decide_eq_decide.mpr (hsame e he)]

/-- A walk that comes to an end draws exactly what a uniform schema leads on to. -/
theorem Visits.exact {root : Schema} (h : Visits st .empty root g 0) (hu : st.Uniform root) :
    Exact st root g := by
  have hR : ∀ s, st.LeadsOn root s → ∀ link ∈ st.links s, st.LeadsOn root link.2 :=
    fun s hs link hl => hs.tail ⟨link.1, hl⟩
  have hfind : ReferenceGraph.empty.find? root.uri.text = none := by
    simp [find?, ReferenceGraph.empty]
  obtain ⟨hwf, hroot, hdrawn⟩ : g.WellFormed ∧ g.nodes[0]? = some root.uri.text ∧
      ∀ i < g.nodes.size, DrawnFrom st (st.LeadsOn root) g i := by
    cases h with
    | met hmet =>
      rw [hfind] at hmet
      cases hmet
    | new _ hdraws =>
      have hinsert := wellFormed_empty.extends_insert hfind
      have hwf := hdraws.wellFormed hinsert.wellFormed hinsert.node_lt
      obtain ⟨hentries, _, hnew⟩ := hdraws.drawn hR (hR root .refl) hinsert.wellFormed
        hinsert.node_lt
      have huri : g.uriOf 0 = root.uri.text :=
        (uriOf_extended hdraws.extends hinsert.node_lt).trans (uriOf_insert _ _)
      have hzero : 0 < g.nodes.size := Nat.lt_of_lt_of_le hinsert.node_lt hdraws.size_le
      refine ⟨hwf, huri ▸ getElem?_uriOf hzero, fun i hi => ?_⟩
      by_cases hi0 : i = 0
      · subst hi0
        refine ⟨root, .refl, huri, hentries.trans ?_⟩
        rw [leaving_insert wellFormed_empty, leaving_of_size_le wellFormed_empty (Nat.le_refl _)]
        rfl
      · exact hnew i (by rw [size_insert]; exact Nat.pos_of_ne_zero hi0) hi
  -- a node whose URI is that of a schema has the edges of that schema, too
  have hleaving : ∀ t, st.LeadsOn root t → ∀ i, g.nodes[i]? = some t.uri.text →
      g.leaving i = st.linkUris t := by
    intro t ht i hi
    obtain ⟨t', ht', huri, heq⟩ := hdrawn i (Array.getElem?_eq_some_iff.mp hi).1
    rw [uriOf, hi] at huri
    exact heq.trans (hu t' t ht' ht huri.symm)
  have hmet : ∀ t, st.LeadsOn root t → ∃ i : Nat, g.nodes[i]? = some t.uri.text := by
    intro t ht
    induction ht with
    | refl => exact ⟨0, hroot⟩
    | @tail t c ht hlink ih =>
      obtain ⟨i, hi⟩ := ih
      obtain ⟨kind, hlink⟩ := hlink
      have hmem : (kind, c.uri.text) ∈ g.leaving i := by
        rw [hleaving t ht i hi]
        exact List.mem_map.mpr ⟨_, hlink, rfl⟩
      obtain ⟨e, he, heq⟩ := List.mem_map.mp hmem
      have htarget := getElem?_uriOf (hwf.target e (List.mem_filter.mp he).1)
      exact ⟨e.target, (Prod.mk.inj heq).2 ▸ htarget⟩
  refine ⟨hwf, fun u => ⟨fun hmem => ?_, ?_⟩, fun t ht => ?_, fun t ht => ?_, fun u hmem => ?_⟩
  · obtain ⟨i, hi, rfl⟩ := Array.mem_iff_getElem.mp (Array.mem_def.mpr hmem)
    obtain ⟨t, ht, huri, _⟩ := hdrawn i hi
    refine ⟨t, ht, ?_⟩
    rw [← huri, uriOf, Array.getElem?_eq_getElem hi, Option.getD_some]
  · rintro ⟨t, ht, rfl⟩
    obtain ⟨i, hi⟩ := hmet t ht
    exact Array.mem_def.mp (Array.mem_of_getElem? hi)
  · obtain ⟨i, hi⟩ := hmet t ht
    rw [edgesFrom_eq hwf hi, hleaving t ht i hi]
  · obtain ⟨i, hi⟩ := hmet t ht
    rw [← hleaving t ht i hi]
    exact outgoing_spec (find?_of_getElem? hwf hi)
  · have hnone : g.find? u = none := by
      cases hf : g.find? u with
      | none => rfl
      | some i =>
        exact absurd (Array.mem_def.mp (Array.mem_of_getElem? (find?_some hf))) hmem
    rw [outgoing, hnone]

end ReferenceGraph

/-! ## Loaded schemas -/

namespace Schema

/-- The parts of a schema are itself and the parts of the schemas nested directly in it. -/
theorem parts_eq (s : Schema) :
    s.parts = s :: s.children.flatMap fun entry => entry.2.2.parts := by
  obtain ⟨id, location, draft, body⟩ := s
  rw [parts, descend_node]
  cases body with
  | boolean | reference => rfl
  | object keywords extra =>
    simp only [Schema.body, Body.map, Entries.mapValues, children, Schema.keywords,
      List.flatMap_map, List.flatMap_assoc, Keyword.subschemas_map]

theorem mem_parts_self (s : Schema) : s ∈ s.parts := by
  rw [parts_eq]
  exact List.mem_cons_self

/-- A schema nested in a part is a part. -/
theorem mem_parts_of_child {s t : Schema} (ht : t ∈ s.parts)
    {entry : KeywordKind × Option String × Schema} (he : entry ∈ t.children) :
    entry.2.2 ∈ s.parts := by
  induction s using Schema.induction with
  | step s ih =>
    rw [parts_eq] at ht ⊢
    rcases List.mem_cons.mp ht with rfl | ht
    · exact List.mem_cons_of_mem _ (List.mem_flatMap.mpr ⟨entry, he, mem_parts_self _⟩)
    · obtain ⟨inner, hc, ht⟩ := List.mem_flatMap.mp ht
      obtain ⟨⟨kind, k⟩, hk, hsub⟩ := List.mem_flatMap.mp hc
      obtain ⟨place, hplace, rfl⟩ := List.mem_map.mp hsub
      have hpart := ih kind k place.2 hk (List.mem_map.mpr ⟨_, hplace, rfl⟩) ht
      exact List.mem_cons_of_mem _ (List.mem_flatMap.mpr ⟨_, hc, hpart⟩)

end Schema

namespace Store

variable {st : Store} {root s : Schema}

theorem mem_parts_of_node? {id : Nat} {t : Schema} (h : st.node? id = some t) : t ∈ st.parts := by
  obtain ⟨found, hfound, rfl⟩ : ∃ found, st.nodes[id]? = some found ∧ found = some t := by
    rw [node?] at h
    exact ⟨_, Option.join_eq_some_iff.mp h, rfl⟩
  have hmem : some t ∈ st.nodes.toList := Array.mem_def.mp (Array.mem_of_getElem? hfound)
  exact List.mem_flatMap.mpr ⟨t, List.mem_filterMap.mpr ⟨_, hmem, rfl⟩, t.mem_parts_self⟩

/-- A reference that a sound schema reaches leads to a node of the store, in one step. -/
theorem target_of_sound (h : Account.silent.Sound st [] root) (hs : st.Reaches root s)
    {r : Reference} (hr : s.reference? = some r) :
    ∃ t, Store.target r st = (some t, st) ∧ st.Edge s t ∧ ∃ id, st.node? id = some t := by
  cases h s hs r hr with
  | @finished id t htarget hnode href _ =>
    have hf : Store.follow r.target st = (some t, st) := by
      rw [htarget]
      exact Prod.ext hnode rfl
    exact ⟨t, Store.target_of_follow hf href, .target hr (congrArg Prod.fst hf), id, hnode⟩
  | promised _ _ hmem => cases hmem

/-- What leads on from a node that a sound schema reaches: a step, and no new schema. -/
theorem edge_of_links (h : Account.silent.Sound st [] root) (hs : st.Reaches root s)
    (hpart : s ∈ root.parts ++ st.parts) {link : EdgeKind × Schema} (hl : link ∈ st.links s) :
    st.Edge s link.2 ∧ link.2 ∈ root.parts ++ st.parts := by
  cases hr : s.reference? with
  | some r =>
    obtain ⟨t, ht, hedge, id, hnode⟩ := target_of_sound h hs hr
    have hlinks : st.links s = [(.refersTo, t)] := by simp [links, hr, ht]
    rw [hlinks, List.mem_singleton] at hl
    rw [hl]
    exact ⟨hedge, List.mem_append_right _ (mem_parts_of_node? hnode)⟩
  | none =>
    have hlinks : st.links s = s.children.map fun entry => (.holds entry.1, entry.2.2) := by
      simp [links, hr]
    rw [hlinks] at hl
    obtain ⟨⟨kind, segment, child⟩, hc, rfl⟩ := List.mem_map.mp hl
    refine ⟨.child hc, ?_⟩
    rcases List.mem_append.mp hpart with hpart | hpart
    · exact List.mem_append_left _ (Schema.mem_parts_of_child hpart hc)
    · obtain ⟨t, ht, hpart⟩ := List.mem_flatMap.mp hpart
      exact List.mem_append_right _
        (List.mem_flatMap.mpr ⟨t, ht, Schema.mem_parts_of_child hpart hc⟩)

theorem reaches_of_leadsOn (h : Account.silent.Sound st [] root) (hs : st.LeadsOn root s) :
    st.Reaches root s ∧ s ∈ root.parts ++ st.parts := by
  induction hs with
  | refl => exact ⟨.refl, List.mem_append_left _ root.mem_parts_self⟩
  | tail _ hlink ih =>
    obtain ⟨kind, hlink⟩ := hlink
    obtain ⟨hedge, hpart⟩ := edge_of_links h ih.1 ih.2 hlink
    exact ⟨ih.1.tail hedge, hpart⟩

theorem walkable_of_sound (h : Account.silent.Sound st [] root) :
    ReferenceGraph.Walkable st (st.LeadsOn root)
      ((root.parts ++ st.parts).map (·.uri.text)) where
  links s hs link hl := hs.tail ⟨link.1, hl⟩
  target s hs r hr := by
    obtain ⟨t, ht, _⟩ := target_of_sound h (reaches_of_leadsOn h hs).1 hr
    exact ⟨t, ht⟩
  names s hs := List.mem_map_of_mem (reaches_of_leadsOn h hs).2

end Store

/-- A schema that requests gave has a reference graph: the walk comes to an end and leaves the store
as it was, and if nodes with one URI lead on alike, it draws exactly what the schema leads on to. -/
theorem ReferenceGraph.exact_of_given {st : Store} {given : Schema → Prop} {s : Schema}
    (h : Gave st given) (hs : given s) (hu : st.Uniform s) :
    ∃ g, (ReferenceGraph.ofSchema s).run st = (g, st) ∧ Visits st .empty s g 0 ∧
      Exact st s g := by
  have hwalkable := Store.walkable_of_sound (h.complete s hs).sound
  have hempty : ReferenceGraph.empty.Partial ((s.parts ++ st.parts).map (·.uri.text)) :=
    ⟨wellFormed_empty, fun u hmem => nomatch hmem⟩
  obtain ⟨g, node, heq, hvisits⟩ := hwalkable.follows (s.parts ++ st.parts).length .refl hempty
    (by simp)
  have hzero : node = 0 := by
    cases hvisits with
    | met hfind => simp [find?, ReferenceGraph.empty] at hfind
    | new => rfl
  subst hzero
  have hrun : (ReferenceGraph.ofSchema s).run st = (g, st) := by
    change ((visit (s.parts ++ st.parts).length s ⟨st, .empty⟩).2.graph,
      (visit (s.parts ++ st.parts).length s ⟨st, .empty⟩).2.store) = _
    rw [heq]
  exact ⟨g, hrun, hvisits, hvisits.exact hu⟩

/-- Whether nodes with one URI lead on alike, among all that a schema can lead on to. -/
def Store.isUniform (st : Store) (s : Schema) : Bool :=
  (s.parts ++ st.parts).all fun t => (s.parts ++ st.parts).all fun u =>
    t.uri.text != u.uri.text || st.linkUris t == st.linkUris u

theorem Store.uniform_of_isUniform {st : Store} {s : Schema}
    (h : Account.silent.Sound st [] s) (hc : st.isUniform s = true) : st.Uniform s := by
  intro t u ht hu huri
  have htu := List.all_eq_true.mp (List.all_eq_true.mp hc t (reaches_of_leadsOn h ht).2) u
    (reaches_of_leadsOn h hu).2
  simpa [huri] using htu

/-- A property that refers to a definition, whose items refer back to the schema. -/
def Request.mutual : Request :=
  .named ⟨"http", some "e.com", .segments ["a.json"], none, none⟩
    (.object [("definitions", .object [("d", .object [("items", .object
        [("$ref", .string "#")])])]),
      ("properties", .object [("p", .object [("$ref", .string "#/definitions/d")])])])

theorem ReferenceGraph.exact_of_mutual : ∃ s w' g,
    Request.mutual.run .standard .empty = (.ok s, w') ∧ w'.store.Uniform s ∧
    (ReferenceGraph.ofSchema s).run w'.store = (g, w'.store) ∧ g.nodes.size = 4 ∧
    Exact w'.store s g := by
  have hcheck : (Request.mutual.run .standard .empty).1.toOption.any (fun s =>
      (Request.mutual.run .standard .empty).2.store.isUniform s &&
        ((ReferenceGraph.ofSchema s).run
          (Request.mutual.run .standard .empty).2.store).1.nodes.size = 4) = true := by
    decide +kernel
  obtain ⟨s, w', hr, hs⟩ := Request.exists_of_any_run hcheck
  rw [hr] at hs
  obtain ⟨huniform, hsize⟩ := Bool.and_eq_true_iff.mp hs
  have hgave := Gave.request (w := .empty) Request.mutual .standard (.nothing Store.empty)
    fun _ _ h => by cases h
  rw [hr] at hgave
  have hs : False ∨ (Except.ok s : Except Failure Schema) = .ok s ∨
    ∃ uri, w'.cache.get? uri = some s := Or.inr (Or.inl rfl)
  have hu := Store.uniform_of_isUniform (hgave.complete s hs).sound huniform
  obtain ⟨g, hrun, _, hexact⟩ := ReferenceGraph.exact_of_given hgave hs hu
  rw [hrun] at hsize
  exact ⟨s, w', g, hr, hu, hrun, of_decide_eq_true hsize, hexact⟩

end SchemaAtlas
