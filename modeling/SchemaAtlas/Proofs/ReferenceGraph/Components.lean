import SchemaAtlas.ReferenceGraph
import Mathlib.Logic.Relation
import Mathlib.Data.List.Nodup

/-!
# The components of a reference graph

`ReferenceGraph.reachedFrom` follows each edge at most once and finds all that a node reaches by
one edge or more (`mem_reachedFrom`): what waits and the edges that leave nodes not yet seen run
out before the steps do. So the components are the classes of nodes that reach each other
(`components_stronglyConnected`).
-/

namespace SchemaAtlas

namespace ReferenceGraph

open Relation

variable (g : ReferenceGraph)

/-- Whether an edge leads from one node to another. -/
def Joins (i j : Nat) : Prop := ∃ e ∈ g.edges.toList, e.source = i ∧ e.target = j

/-- Each URI has one node, and edges are between nodes. -/
structure WellFormed : Prop where
  nodup : g.nodes.toList.Nodup
  source : ∀ e ∈ g.edges.toList, e.source < g.nodes.size
  target : ∀ e ∈ g.edges.toList, e.target < g.nodes.size

theorem mem_successors (i j : Nat) : j ∈ g.successors i ↔ g.Joins i j := by
  simp only [successors, List.mem_map, List.mem_filter, decide_eq_true_eq, and_assoc, Joins]

variable {g}

theorem WellFormed.lt_of_joins (h : g.WellFormed) {i j : Nat} (hj : g.Joins i j) :
    i < g.nodes.size ∧ j < g.nodes.size := by
  obtain ⟨e, he, rfl, rfl⟩ := hj
  exact ⟨h.source e he, h.target e he⟩

/-! ## Closing -/

theorem close_zero (next : Nat → List Nat) (waiting seen : List Nat) :
    close next 0 waiting seen = seen := rfl

theorem close_nil (next : Nat → List Nat) (steps : Nat) (seen : List Nat) :
    close next steps [] seen = seen := by
  cases steps <;> rfl

theorem close_of_mem (next : Nat → List Nat) (steps : Nat) {node : Nat} {waiting seen : List Nat}
    (h : node ∈ seen) :
    close next (steps + 1) (node :: waiting) seen = close next steps waiting seen := by
  rw [close, if_pos (by simpa using h)]

theorem close_of_not_mem (next : Nat → List Nat) (steps : Nat) {node : Nat}
    {waiting seen : List Nat} (h : node ∉ seen) :
    close next (steps + 1) (node :: waiting) seen =
      close next steps (next node ++ waiting) (node :: seen) := by
  rw [close, if_neg (by simpa using h)]

/-- Nothing is seen but what the nodes seen and waiting reach. -/
theorem reached_of_mem_close {start : Nat} {steps : Nat} {waiting seen : List Nat}
    (hseen : ∀ i ∈ seen, TransGen g.Joins start i)
    (hwaiting : ∀ i ∈ waiting, TransGen g.Joins start i) :
    ∀ i ∈ close g.successors steps waiting seen, TransGen g.Joins start i := by
  induction steps generalizing waiting seen with
  | zero => exact hseen
  | succ steps ih =>
    cases waiting with
    | nil => exact hseen
    | cons node waiting =>
      obtain ⟨hnode, hrest⟩ := List.forall_mem_cons.mp hwaiting
      by_cases h : node ∈ seen
      · rw [close_of_mem _ _ h]
        exact ih hseen hrest
      · rw [close_of_not_mem _ _ h]
        refine ih (List.forall_mem_cons.mpr ⟨hnode, hseen⟩) fun i hi => ?_
        rcases List.mem_append.mp hi with hi | hi
        · exact hnode.tail ((g.mem_successors node i).mp hi)
        · exact hrest i hi

/-- The edges that leave nodes not seen. -/
def unfollowed (g : ReferenceGraph) (seen : List Nat) : Nat :=
  g.edges.toList.countP fun e => !seen.contains e.source

theorem unfollowed_cons {node : Nat} {seen : List Nat} (h : node ∉ seen) :
    g.unfollowed seen = (g.successors node).length + g.unfollowed (node :: seen) := by
  simp only [unfollowed, successors, List.length_map]
  induction g.edges.toList with
  | nil => rfl
  | cons e rest ih =>
    by_cases hsource : e.source = node
    · subst hsource
      simp only [List.countP_cons, List.filter_cons, ih]
      simp [h]
      omega
    · simp only [List.countP_cons, List.filter_cons, ih]
      simp [hsource]
      omega

/-- With steps for all that waits and all edges not yet followed, everything that waits is seen,
and what is seen is closed under edges if the nodes already seen lead to nodes seen or waiting. -/
theorem closed_of_close {steps : Nat} {waiting seen : List Nat}
    (hsteps : waiting.length + g.unfollowed seen ≤ steps)
    (hseen : ∀ i ∈ seen, ∀ j, g.Joins i j → j ∈ seen ∨ j ∈ waiting) :
    (∀ i, i ∈ seen ∨ i ∈ waiting → i ∈ close g.successors steps waiting seen) ∧
      ∀ i ∈ close g.successors steps waiting seen, ∀ j, g.Joins i j →
        j ∈ close g.successors steps waiting seen := by
  induction steps generalizing waiting seen with
  | zero =>
    have hnone : waiting = [] := List.length_eq_zero_iff.mp (by omega)
    subst hnone
    simpa [close_zero] using hseen
  | succ steps ih =>
    cases waiting with
    | nil => simpa [close_nil] using hseen
    | cons node waiting =>
      rw [List.length_cons] at hsteps
      by_cases h : node ∈ seen
      · rw [close_of_mem _ _ h]
        have hkept : ∀ i ∈ seen, ∀ j, g.Joins i j → j ∈ seen ∨ j ∈ waiting := by
          intro i hi j hj
          rcases hseen i hi j hj with hj | hj
          · exact Or.inl hj
          · rcases List.mem_cons.mp hj with rfl | hj
            · exact Or.inl h
            · exact Or.inr hj
        obtain ⟨hall, hclosed⟩ := ih (by omega) hkept
        refine ⟨fun i hi => hall i ?_, hclosed⟩
        rcases hi with hi | hi
        · exact Or.inl hi
        · rcases List.mem_cons.mp hi with rfl | hi
          · exact Or.inl h
          · exact Or.inr hi
      · rw [close_of_not_mem _ _ h]
        rw [unfollowed_cons h] at hsteps
        have hkept : ∀ i ∈ node :: seen, ∀ j, g.Joins i j →
            j ∈ node :: seen ∨ j ∈ g.successors node ++ waiting := by
          intro i hi j hj
          rcases List.mem_cons.mp hi with rfl | hi
          · exact Or.inr (List.mem_append_left _ ((g.mem_successors i j).mpr hj))
          · rcases hseen i hi j hj with hj | hj
            · exact Or.inl (List.mem_cons_of_mem _ hj)
            · rcases List.mem_cons.mp hj with rfl | hj
              · exact Or.inl List.mem_cons_self
              · exact Or.inr (List.mem_append_right _ hj)
        obtain ⟨hall, hclosed⟩ := ih (by rw [List.length_append]; omega) hkept
        refine ⟨fun i hi => hall i ?_, hclosed⟩
        rcases hi with hi | hi
        · exact Or.inl (List.mem_cons_of_mem _ hi)
        · rcases List.mem_cons.mp hi with rfl | hi
          · exact Or.inl List.mem_cons_self
          · exact Or.inr (List.mem_append_right _ hi)

/-- A node reaches what it is found to reach. -/
theorem mem_reachedFrom (i j : Nat) : j ∈ g.reachedFrom i ↔ TransGen g.Joins i j := by
  have hsteps : (g.successors i).length + g.unfollowed [] ≤ 2 * g.edges.size + 1 := by
    have hleave : (g.successors i).length ≤ g.edges.size := by
      simpa [successors] using List.length_filter_le (fun e : Edge => e.source = i) g.edges.toList
    have hall : g.unfollowed [] ≤ g.edges.size := by
      exact List.countP_le_length
    omega
  constructor
  · exact reached_of_mem_close (fun k hk => by cases hk)
      (fun k hk => .single ((g.mem_successors i k).mp hk)) j
  · intro h
    obtain ⟨hall, hclosed⟩ := closed_of_close hsteps (fun k hk => by cases hk)
    induction h with
    | single hj => exact hall _ (Or.inr ((g.mem_successors i _).mpr hj))
    | tail _ hj ih => exact hclosed _ ih _ hj

/-! ## Components -/

/-- The classes of nodes that reach each other, in any order. -/
structure StronglyConnected (g : ReferenceGraph) (components : List (List Nat)) : Prop where
  covers : ∀ i < g.nodes.size, ∃ members ∈ components, i ∈ members
  nonempty : ∀ members ∈ components, members ≠ []
  nodup : ∀ members ∈ components, members.Nodup
  mem_iff : ∀ members ∈ components, ∀ i ∈ members, ∀ j, j ∈ members ↔
    j < g.nodes.size ∧ ReflTransGen g.Joins i j ∧ ReflTransGen g.Joins j i
  disjoint : components.Pairwise List.Disjoint

/-- The nodes that each node reaches. -/
def reachedByAll (g : ReferenceGraph) : Array (List Nat) :=
  (Array.range g.nodes.size).map g.reachedFrom

theorem mem_componentOf {i : Nat} (hi : i < g.nodes.size) (j : Nat) :
    j ∈ componentOf g.reachedByAll i ↔ j < g.nodes.size ∧ ReflTransGen g.Joins i j ∧
      ReflTransGen g.Joins j i := by
  have hreached : ∀ k < g.nodes.size, g.reachedByAll[k]?.getD [] = g.reachedFrom k := by
    intro k hk
    simp [reachedByAll, hk]
  have hsize : g.reachedByAll.size = g.nodes.size := by simp [reachedByAll]
  rw [componentOf, List.mem_filter, List.mem_range, hsize]
  refine and_congr_right fun hj => ?_
  dsimp only
  rw [hreached i hi, hreached j hj, Bool.or_eq_true, Bool.and_eq_true, decide_eq_true_eq,
    List.contains_iff_mem, List.contains_iff_mem, mem_reachedFrom, mem_reachedFrom,
    reflTransGen_iff_eq_or_transGen, reflTransGen_iff_eq_or_transGen]
  constructor
  · rintro (rfl | ⟨hij, hji⟩)
    · exact ⟨Or.inl rfl, Or.inl rfl⟩
    · exact ⟨Or.inr hij, Or.inr hji⟩
  · rintro ⟨heq | hij, heq' | hji⟩
    · exact Or.inl heq'
    · exact Or.inl heq.symm
    · exact Or.inl heq'
    · exact Or.inr ⟨hij, hji⟩

theorem mem_componentOf_self {i : Nat} (hi : i < g.nodes.size) :
    i ∈ componentOf g.reachedByAll i :=
  (mem_componentOf hi i).mpr ⟨hi, .refl, .refl⟩

/-- The component of a node is that of each of its members. -/
theorem componentOf_eq {i j : Nat} (hi : i < g.nodes.size)
    (hj : j ∈ componentOf g.reachedByAll i) :
    componentOf g.reachedByAll j = componentOf g.reachedByAll i := by
  obtain ⟨hlt, hij, hji⟩ := (mem_componentOf hi j).mp hj
  refine List.filter_congr fun k hk => Bool.eq_iff_iff.mpr ?_
  have hmem : ∀ n < g.nodes.size, k ∈ componentOf g.reachedByAll n ↔ _ :=
    fun n hn => mem_componentOf hn k
  simp only [componentOf, List.mem_filter, hk, true_and] at hmem
  rw [hmem j hlt, hmem i hi]
  exact ⟨fun ⟨h, hjk, hkj⟩ => ⟨h, hij.trans hjk, hkj.trans hji⟩,
    fun ⟨h, hik, hki⟩ => ⟨h, hji.trans hik, hki.trans hij⟩⟩

theorem mem_components {members : List Nat} :
    members ∈ g.components ↔ ∃ i < g.nodes.size, componentOf g.reachedByAll i = members := by
  simp [components, reachedByAll]

theorem nodup_eraseDups {α : Type} [BEq α] [LawfulBEq α] (l : List α) : l.eraseDups.Nodup := by
  match l with
  | [] => exact List.nodup_nil
  | a :: rest =>
    have hshorter : (rest.filter fun b => !b == a).length < (a :: rest).length :=
      Nat.lt_succ_of_le (List.length_filter_le _ rest)
    rw [List.eraseDups_cons, List.nodup_cons, List.mem_eraseDups]
    exact ⟨by simp, nodup_eraseDups _⟩
termination_by l.length
decreasing_by exact hshorter

theorem components_stronglyConnected (g : ReferenceGraph) :
    g.StronglyConnected g.components where
  covers i hi := ⟨_, mem_components.mpr ⟨i, hi, rfl⟩, mem_componentOf_self hi⟩
  nonempty members hm := by
    obtain ⟨i, hi, rfl⟩ := mem_components.mp hm
    exact List.ne_nil_of_mem (mem_componentOf_self hi)
  nodup members hm := by
    obtain ⟨i, _, rfl⟩ := mem_components.mp hm
    exact List.nodup_range.filter _
  mem_iff members hm i hi j := by
    obtain ⟨k, hk, rfl⟩ := mem_components.mp hm
    rw [← componentOf_eq hk hi]
    exact mem_componentOf ((mem_componentOf hk i).mp hi).1 j
  disjoint := by
    refine List.Nodup.pairwise_of_forall_ne (nodup_eraseDups _) fun a ha b hb hne i hia hib => ?_
    obtain ⟨k, hk, rfl⟩ := mem_components.mp ha
    obtain ⟨l, hl, rfl⟩ := mem_components.mp hb
    exact hne ((componentOf_eq hk hia).symm.trans (componentOf_eq hl hib))

end ReferenceGraph

end SchemaAtlas
