import SchemaAtlas.Proofs.ReferenceGraph.Components
import Mathlib.Data.List.Sort

/-!
# Recursive groups

A component is recursive if its nodes reach themselves by one edge or more: one of several nodes
always is, one of a single node only if an edge leads from the node to itself
(`ReferenceGraph.recurs_iff`). By URI and in order, the recursive ones of any strongly connected
components are the recursive groups of the graph (`recursiveGroups_of_components`).
-/

namespace SchemaAtlas

namespace ReferenceGraph

open Relation

/-- Whether an edge leads from the node with one URI to the node with another. -/
def Leads (g : ReferenceGraph) (u v : String) : Prop :=
  ∃ i j, g.Joins i j ∧ g.nodes[i]? = some u ∧ g.nodes[j]? = some v

/-- One group of nodes before another by their first members. -/
def Before (a b : List String) : Prop :=
  ∃ x y, a.head? = some x ∧ b.head? = some y ∧ x < y

/-- The groups of nodes that reach themselves and each other, in order. -/
structure RecursiveGroups (g : ReferenceGraph) (groups : List (List String)) : Prop where
  /-- A node occurs in a group if it reaches itself by one edge or more. -/
  occurs : ∀ u, (∃ group ∈ groups, u ∈ group) ↔ TransGen g.Leads u u
  /-- A node occurs in one group only. -/
  apart : groups.Pairwise List.Disjoint
  /-- The nodes in the group of a node are those that it reaches and is reached by. -/
  together : ∀ group ∈ groups, ∀ u ∈ group, ∀ v,
    v ∈ group ↔ TransGen g.Leads u v ∧ TransGen g.Leads v u
  nonempty : ∀ group ∈ groups, group ≠ []
  sorted : ∀ group ∈ groups, group.Pairwise (· < ·)
  ordered : groups.Pairwise Before

variable {g : ReferenceGraph}

/-! ## URIs -/

theorem getElem?_uriOf {i : Nat} (hi : i < g.nodes.size) : g.nodes[i]? = some (g.uriOf i) := by
  simp [uriOf, hi]

theorem WellFormed.eq_of_getElem? (h : g.WellFormed) {i j : Nat} {u : String}
    (hi : g.nodes[i]? = some u) (hj : g.nodes[j]? = some u) : i = j := by
  rw [← Array.getElem?_toList] at hi hj
  have hlt : i < g.nodes.toList.length := (List.getElem?_eq_some_iff.mp hi).1
  exact (List.getElem?_inj hlt h.nodup).mp (hi.trans hj.symm)

theorem WellFormed.uriOf_inj (h : g.WellFormed) {i j : Nat} (hi : i < g.nodes.size)
    (hj : j < g.nodes.size) (heq : g.uriOf i = g.uriOf j) : i = j :=
  h.eq_of_getElem? (getElem?_uriOf hi) (heq ▸ getElem?_uriOf hj)

theorem WellFormed.leads_of_joins (h : g.WellFormed) {i j : Nat} (hj : g.Joins i j) :
    g.Leads (g.uriOf i) (g.uriOf j) :=
  ⟨i, j, hj, getElem?_uriOf (h.lt_of_joins hj).1, getElem?_uriOf (h.lt_of_joins hj).2⟩

/-- A way by URIs is one by nodes, as a URI has one node. -/
theorem WellFormed.transGen_joins (h : g.WellFormed) {u v : String} (huv : TransGen g.Leads u v)
    {i : Nat} (hi : g.nodes[i]? = some u) :
    ∃ j, g.nodes[j]? = some v ∧ TransGen g.Joins i j := by
  induction huv with
  | single hstep =>
    obtain ⟨i', j, hjoin, hi', hj⟩ := hstep
    cases h.eq_of_getElem? hi hi'
    exact ⟨j, hj, .single hjoin⟩
  | tail _ hstep ih =>
    obtain ⟨j, hj, hij⟩ := ih
    obtain ⟨j', k, hjoin, hj', hk⟩ := hstep
    cases h.eq_of_getElem? hj hj'
    exact ⟨k, hk, hij.tail hjoin⟩

theorem WellFormed.transGen_leads_iff (h : g.WellFormed) {i j : Nat} (hi : i < g.nodes.size)
    (hj : j < g.nodes.size) :
    TransGen g.Leads (g.uriOf i) (g.uriOf j) ↔ TransGen g.Joins i j := by
  constructor
  · intro huv
    obtain ⟨j', hj', hij⟩ := h.transGen_joins huv (getElem?_uriOf hi)
    rwa [h.eq_of_getElem? (getElem?_uriOf hj) hj']
  · intro hij
    induction hij with
    | single hjoin => exact .single (h.leads_of_joins hjoin)
    | tail _ hjoin ih => exact (ih (h.lt_of_joins hjoin).1).tail (h.leads_of_joins hjoin)

/-- What leads anywhere is a node. -/
theorem exists_of_transGen {u v : String} (huv : TransGen g.Leads u v) :
    ∃ i < g.nodes.size, g.uriOf i = u := by
  obtain ⟨_, ⟨i, _, _, hi, _⟩, _⟩ := TransGen.head'_iff.mp huv
  obtain ⟨hlt, heq⟩ := Array.getElem?_eq_some_iff.mp hi
  exact ⟨i, hlt, by rw [uriOf, hi]; rfl⟩

/-! ## Recursive components -/

/-- A component of one node is recursive by an edge to itself only: any other first step of a way
back would lead to another node of the component. -/
theorem recurs_iff (h : g.WellFormed) {components : List (List Nat)}
    (hc : g.StronglyConnected components) {members : List Nat} (hm : members ∈ components)
    {i : Nat} (hi : i ∈ members) : g.recurs members = true ↔ TransGen g.Joins i i := by
  match members with
  | [node] =>
    cases List.mem_singleton.mp hi
    rw [recurs, List.contains_iff_mem, mem_successors]
    refine ⟨.single, fun hii => ?_⟩
    obtain ⟨j, hjoin, hji⟩ := TransGen.head'_iff.mp hii
    have hj : j ∈ [i] := (hc.mem_iff _ hm i hi j).mpr ⟨(h.lt_of_joins hjoin).2, .single hjoin, hji⟩
    rwa [List.mem_singleton.mp hj] at hjoin
  | a :: b :: rest =>
    refine ⟨fun _ => ?_, fun _ => rfl⟩
    have hne : a ≠ b := fun heq => (List.nodup_cons.mp (hc.nodup _ hm)).1 (heq ▸ List.mem_cons_self)
    obtain ⟨j, hj, hij⟩ : ∃ j ∈ a :: b :: rest, i ≠ j := by
      by_cases hia : i = a
      · exact ⟨b, by simp, hia ▸ hne⟩
      · exact ⟨a, by simp, hia⟩
    obtain ⟨_, hto, hback⟩ := (hc.mem_iff _ hm i hi j).mp hj
    rcases reflTransGen_iff_eq_or_transGen.mp hto with heq | hto
    · exact (hij heq.symm).elim
    · exact hto.trans_left hback

/-! ## Order -/

theorem mem_insertGroup {a group : List String} {sorted : List (List String)} :
    a ∈ insertGroup group sorted ↔ a = group ∨ a ∈ sorted := by
  induction sorted with
  | nil => simp [insertGroup]
  | cons other rest ih =>
    rw [insertGroup]
    split
    · simp
    · simp [ih, or_left_comm]

theorem Before.trans {a b c : List String} (hab : Before a b) (hbc : Before b c) : Before a c := by
  obtain ⟨x, y, hx, hy, hxy⟩ := hab
  obtain ⟨y', z, hy', hz, hyz⟩ := hbc
  cases hy.symm.trans hy'
  exact ⟨x, z, hx, hz, String.lt_trans hxy hyz⟩

theorem Before.asymm {a b : List String} (hab : Before a b) : ¬Before b a := by
  rintro ⟨y, x, hy, hx, hyx⟩
  obtain ⟨x', y', hx', hy', hxy⟩ := hab
  cases hx.symm.trans hx'
  cases hy.symm.trans hy'
  exact String.lt_asymm hxy hyx

instance : Std.Irrefl Before := ⟨fun _ h => h.asymm h⟩

instance : Std.Antisymm Before := ⟨fun _ _ h h' => (h.asymm h').elim⟩

/-- Lists with different first members are in the order of these. -/
theorem before_cases {a b : List String} (ha : a ≠ []) (hb : b ≠ []) (hne : a.head? ≠ b.head?) :
    (a < b ∧ Before a b) ∨ (¬a < b ∧ Before b a) := by
  obtain ⟨x, xs, rfl⟩ := List.exists_cons_of_ne_nil ha
  obtain ⟨y, ys, rfl⟩ := List.exists_cons_of_ne_nil hb
  have hxy : x ≠ y := fun heq => hne (congrArg some heq)
  rw [List.cons_lt_cons_iff]
  by_cases hlt : x < y
  · exact Or.inl ⟨Or.inl hlt, x, y, rfl, rfl, hlt⟩
  · refine Or.inr ⟨by simp [hlt, hxy], y, x, rfl, rfl, Std.lt_of_le_of_ne hlt hxy.symm⟩

theorem before_insertGroup {group : List String} {sorted : List (List String)}
    (hs : sorted.Pairwise Before) (hg : group ≠ [])
    (hne : ∀ other ∈ sorted, other ≠ [] ∧ group.head? ≠ other.head?) :
    (insertGroup group sorted).Pairwise Before := by
  induction sorted with
  | nil => exact List.pairwise_singleton _ _
  | cons other rest ih =>
    obtain ⟨hfirst, hrest⟩ := List.pairwise_cons.mp hs
    obtain ⟨⟨hother, hhead⟩, hne⟩ := List.forall_mem_cons.mp hne
    rw [insertGroup]
    rcases before_cases hg hother hhead with ⟨hlt, hbefore⟩ | ⟨hlt, hbefore⟩
    · rw [if_pos hlt]
      refine List.pairwise_cons.mpr ⟨fun a ha => ?_, hs⟩
      rcases List.mem_cons.mp ha with rfl | ha
      · exact hbefore
      · exact hbefore.trans (hfirst a ha)
    · rw [if_neg hlt]
      refine List.pairwise_cons.mpr ⟨fun a ha => ?_, ih hrest hne⟩
      rcases mem_insertGroup.mp ha with rfl | ha
      · exact hbefore
      · exact hfirst a ha

/-- Sorting keeps the groups and puts them in order. -/
theorem sorted_of_foldl {groups sorted : List (List String)} (hs : sorted.Pairwise Before)
    (hne : ∀ group ∈ groups ++ sorted, group ≠ [])
    (hapart : groups.Pairwise fun a b => a.head? ≠ b.head?)
    (hnew : ∀ group ∈ groups, ∀ other ∈ sorted, group.head? ≠ other.head?) :
    (groups.foldl (fun sorted group => insertGroup group sorted) sorted).Pairwise Before ∧
      ∀ a, a ∈ groups.foldl (fun sorted group => insertGroup group sorted) sorted ↔
        a ∈ groups ∨ a ∈ sorted := by
  induction groups generalizing sorted with
  | nil => simpa using hs
  | cons group rest ih =>
    obtain ⟨hfirst, hrest⟩ := List.pairwise_cons.mp hapart
    rw [List.foldl_cons]
    have hinsert : (insertGroup group sorted).Pairwise Before :=
      before_insertGroup hs (hne group (by simp)) fun other ho =>
        ⟨hne other (by simp [ho]), hnew group (by simp) other ho⟩
    obtain ⟨hpairwise, hmem⟩ := ih hinsert
      (fun a ha => hne a (by
        rcases List.mem_append.mp ha with ha | ha
        · simp [ha]
        · rcases mem_insertGroup.mp ha with rfl | ha <;> simp [*])) hrest
      (fun a ha other ho => by
        rcases mem_insertGroup.mp ho with rfl | ho
        · exact (hfirst a ha).symm
        · exact hnew a (List.mem_cons_of_mem _ ha) other ho)
    refine ⟨hpairwise, fun a => ?_⟩
    rw [hmem, mem_insertGroup, List.mem_cons]
    tauto

/-! ## Groups -/

/-- The URIs of some nodes, in order. -/
def namesOf (g : ReferenceGraph) (members : List Nat) : List String :=
  Members.ofList (members.map g.uriOf)

theorem mem_namesOf {members : List Nat} {u : String} :
    u ∈ g.namesOf members ↔ ∃ i ∈ members, g.uriOf i = u := by
  have hmem := Members.mem_union [] (members.map g.uriOf) u
  simpa [namesOf, Members.ofList, Members.union] using hmem

theorem sorted_namesOf (members : List Nat) : (g.namesOf members).Pairwise (· < ·) :=
  Members.sorted_union (fun _ _ _ => String.lt_trans)
    (fun _ _ hne hlt => Std.lt_of_le_of_ne hlt hne.symm) .nil (members.map g.uriOf)

section

variable {components : List (List Nat)} (hc : g.StronglyConnected components)

include hc

/-- The members of a component are nodes. -/
theorem StronglyConnected.lt_of_mem {members : List Nat} (hm : members ∈ components) {i : Nat}
    (hi : i ∈ members) : i < g.nodes.size :=
  ((hc.mem_iff members hm i hi i).mp hi).1

theorem StronglyConnected.namesOf_ne_nil {members : List Nat} (hm : members ∈ components) :
    g.namesOf members ≠ [] := by
  obtain ⟨i, hi⟩ := List.exists_mem_of_ne_nil members (hc.nonempty members hm)
  exact List.ne_nil_of_mem (mem_namesOf.mpr ⟨i, hi, rfl⟩)

variable (h : g.WellFormed)

include h

theorem disjoint_namesOf {a b : List Nat} (ha : a ∈ components) (hb : b ∈ components)
    (hab : List.Disjoint a b) : List.Disjoint (g.namesOf a) (g.namesOf b) := by
  intro u hua hub
  obtain ⟨i, hi, rfl⟩ := mem_namesOf.mp hua
  obtain ⟨j, hj, heq⟩ := mem_namesOf.mp hub
  cases h.uriOf_inj (hc.lt_of_mem hb hj) (hc.lt_of_mem ha hi) heq
  exact hab hi hj

/-- The groups stand in order and are the recursive components. -/
theorem groupsOf_spec : (g.groupsOf components).Pairwise Before ∧
    ∀ group, group ∈ g.groupsOf components ↔
      ∃ members ∈ components, g.recurs members = true ∧ g.namesOf members = group := by
  have hsub : ∀ members ∈ components.filter g.recurs, members ∈ components :=
    fun _ hm => (List.mem_filter.mp hm).1
  have hheads : ((components.filter g.recurs).map g.namesOf).Pairwise
      fun a b => a.head? ≠ b.head? := by
    rw [List.pairwise_map]
    refine (hc.disjoint.filter _).imp_of_mem fun {a b} ha hb hab heq => ?_
    obtain ⟨x, xs, hx⟩ := List.exists_cons_of_ne_nil (hc.namesOf_ne_nil (hsub a ha))
    have hxa : x ∈ g.namesOf a := hx ▸ List.mem_cons_self
    have hxb : x ∈ g.namesOf b := List.mem_of_head? (heq.symm.trans (congrArg List.head? hx))
    exact disjoint_namesOf hc h (hsub a ha) (hsub b hb) hab hxa hxb
  have hnonempty : ∀ group ∈ (components.filter g.recurs).map g.namesOf ++ [], group ≠ [] := by
    intro group hgroup
    rw [List.append_nil] at hgroup
    obtain ⟨members, hm, rfl⟩ := List.mem_map.mp hgroup
    exact hc.namesOf_ne_nil (hsub members hm)
  obtain ⟨hordered, hmem⟩ := sorted_of_foldl .nil hnonempty hheads fun _ _ _ ho => nomatch ho
  refine ⟨hordered, fun group => (hmem group).trans ?_⟩
  simp [and_assoc]

/-- The nodes of a group by URI: those that some member reaches and is reached by. -/
theorem mem_namesOf_iff {members : List Nat} (hm : members ∈ components)
    (hr : g.recurs members = true) {i : Nat} (hi : i ∈ members) (v : String) :
    v ∈ g.namesOf members ↔
      TransGen g.Leads (g.uriOf i) v ∧ TransGen g.Leads v (g.uriOf i) := by
  have hlt := hc.lt_of_mem hm hi
  have hself := (recurs_iff h hc hm hi).mp hr
  rw [mem_namesOf]
  constructor
  · rintro ⟨j, hj, rfl⟩
    obtain ⟨hltj, hij, hji⟩ := (hc.mem_iff members hm i hi j).mp hj
    rw [h.transGen_leads_iff hlt hltj, h.transGen_leads_iff hltj hlt]
    exact ⟨hself.trans_left hij, hself.trans_right hji⟩
  · rintro ⟨hto, hback⟩
    obtain ⟨j, hltj, rfl⟩ := exists_of_transGen hback
    rw [h.transGen_leads_iff hlt hltj] at hto
    rw [h.transGen_leads_iff hltj hlt] at hback
    exact ⟨j, (hc.mem_iff members hm i hi j).mpr ⟨hltj, hto.to_reflTransGen,
      hback.to_reflTransGen⟩, rfl⟩

/-- Any way to find the strongly connected components gives the recursive groups. -/
theorem recursiveGroups_of_components : g.RecursiveGroups (g.groupsOf components) := by
  obtain ⟨hordered, hmem⟩ := groupsOf_spec hc h
  have htogether : ∀ group ∈ g.groupsOf components, ∀ u ∈ group, ∀ v,
      v ∈ group ↔ TransGen g.Leads u v ∧ TransGen g.Leads v u := by
    intro group hgroup u hu v
    obtain ⟨members, hm, hr, rfl⟩ := (hmem group).mp hgroup
    obtain ⟨i, hi, rfl⟩ := mem_namesOf.mp hu
    exact mem_namesOf_iff hc h hm hr hi v
  have hsorted : ∀ group ∈ g.groupsOf components, group.Pairwise (· < ·) := by
    intro group hgroup
    obtain ⟨members, _, _, rfl⟩ := (hmem group).mp hgroup
    exact sorted_namesOf members
  refine ⟨fun u => ⟨?_, fun hu => ?_⟩, ?_, htogether, ?_, hsorted, hordered⟩
  · rintro ⟨group, hgroup, hu⟩
    exact ((htogether group hgroup u hu u).mp hu).1
  · obtain ⟨i, hi, rfl⟩ := exists_of_transGen hu
    obtain ⟨members, hm, himem⟩ := hc.covers i hi
    have hr := (recurs_iff h hc hm himem).mpr ((h.transGen_leads_iff hi hi).mp hu)
    exact ⟨_, (hmem _).mpr ⟨members, hm, hr, rfl⟩, mem_namesOf.mpr ⟨i, himem, rfl⟩⟩
  · -- the first member of one group would stand in the other one, before its first member
    refine hordered.imp_of_mem fun {a b} ha hb ⟨x, y, hx, hy, hxy⟩ u hua hub => ?_
    have hxu := (htogether a ha u hua x).mp (List.mem_of_head? hx)
    have hxb : x ∈ b := (htogether b hb u hub x).mpr hxu
    obtain ⟨ys, rfl⟩ := List.head?_eq_some_iff.mp hy
    rcases List.mem_cons.mp hxb with rfl | hxys
    · exact String.lt_irrefl x hxy
    · exact String.lt_asymm hxy ((List.pairwise_cons.mp (hsorted _ hb)).1 x hxys)
  · intro group hgroup
    obtain ⟨members, hm, _, rfl⟩ := (hmem group).mp hgroup
    exact hc.namesOf_ne_nil hm

end

/-- A group of one answer is one of any other answer. -/
theorem RecursiveGroups.mem {a b : List (List String)} (ha : g.RecursiveGroups a)
    (hb : g.RecursiveGroups b) {group : List String} (hgroup : group ∈ a) : group ∈ b := by
  obtain ⟨u, hu⟩ := List.exists_mem_of_ne_nil group (ha.nonempty group hgroup)
  obtain ⟨other, hother, huo⟩ := (hb.occurs u).mpr ((ha.occurs u).mp ⟨group, hgroup, hu⟩)
  have hsame : group = other :=
    (ha.sorted group hgroup).eq_of_mem_iff (hb.sorted other hother) fun v =>
      (ha.together group hgroup u hu v).trans (hb.together other hother u huo v).symm
  exact hsame ▸ hother

/-- There is one answer only. -/
theorem RecursiveGroups.unique {a b : List (List String)} (ha : g.RecursiveGroups a)
    (hb : g.RecursiveGroups b) : a = b :=
  ha.ordered.eq_of_mem_iff hb.ordered fun _ => ⟨ha.mem hb, hb.mem ha⟩

/-- The recursive groups of a graph are exactly those that `cycles` finds, and the graph is
recursive if some node reaches itself. -/
theorem cycles_exact (h : g.WellFormed) : g.RecursiveGroups g.cycles ∧
    (g.isRecursive = true ↔ ∃ u, TransGen g.Leads u u) := by
  have hgroups : g.RecursiveGroups g.cycles :=
    recursiveGroups_of_components (components_stronglyConnected g) h
  refine ⟨hgroups, ?_⟩
  rw [isRecursive, Bool.not_eq_true', List.isEmpty_eq_false_iff_exists_mem]
  constructor
  · rintro ⟨group, hgroup⟩
    obtain ⟨u, hu⟩ := List.exists_mem_of_ne_nil group (hgroups.nonempty group hgroup)
    exact ⟨u, (hgroups.occurs u).mp ⟨group, hgroup, hu⟩⟩
  · rintro ⟨u, hu⟩
    obtain ⟨group, hgroup, _⟩ := (hgroups.occurs u).mpr hu
    exact ⟨group, hgroup⟩

/-- Two nodes that lead to each other and on to a third one, which leads to itself and to a
fourth one. -/
def looped : ReferenceGraph :=
  { nodes := #["b", "a", "c", "d"]
    edges := #[⟨0, 1, .refersTo⟩, ⟨1, 0, .holds .items⟩, ⟨1, 2, .holds .not⟩, ⟨2, 2, .refersTo⟩,
      ⟨2, 3, .refersTo⟩] }

theorem cycles_of_looped : looped.WellFormed ∧ looped.RecursiveGroups [["a", "b"], ["c"]] ∧
    ∃ u, TransGen looped.Leads u u := by
  have h : looped.WellFormed := ⟨by decide, by decide, by decide⟩
  obtain ⟨hgroups, hrecursive⟩ := cycles_exact h
  have hcycles : looped.cycles = [["a", "b"], ["c"]] := by decide +kernel
  rw [hcycles] at hgroups
  exact ⟨h, hgroups, hrecursive.mp (by rw [isRecursive, hcycles]; rfl)⟩

end ReferenceGraph

end SchemaAtlas
