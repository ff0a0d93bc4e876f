import SchemaAtlas.Proofs.Loading.Position
import SchemaAtlas.Proofs.Schema.Nesting
import SchemaAtlas.Proofs.Spelling.Skeleton
import SchemaAtlas.Schema.Access

/-!
# Outlines of loaded schemas

The outline of a schema says which places one comes to from it, through nested schemas and
targets of references. It does not depend on more than the skeletons of the nodes.
-/

namespace SchemaAtlas

/-! ## Outlines -/

/-- A step through a loaded graph. -/
inductive Turn where
  | below (kind : KeywordKind) (segment : Option String)
  | target
  deriving DecidableEq, Repr

namespace Store

/-- The node that a route leads to. -/
def reach (store : Store) (s : Schema) : List Turn → Option Schema
  | [] => some s
  | .below kind segment :: rest => (s.below? kind segment).bind fun t => reach store t rest
  | .target :: rest =>
    s.reference?.bind fun r => (target r store).1.bind fun t => reach store t rest

/-- Where a route leads, and whether to a reference. -/
def outline (store : Store) (s : Schema) (route : List Turn) : Option ((Uri × Pointer) × Bool) :=
  (store.reach s route).map fun t => (t.location.place, t.isReference)

end Store

theorem Keyword.subschemas_bare {σ : Type} (k : Keyword σ) : k.bare.subschemas = k.subschemas := by
  cases k with
  | dependencies entries =>
    simp only [bare, subschemas, Entries.mapValues, List.filterMap_map]
    refine List.filterMap_congr fun entry _ => ?_
    obtain ⟨name, d⟩ := entry
    cases d <;> rfl
  | _ => rfl

theorem Keyword.subschemas_sketch {α : Type} (view : Schema → α) (k : Keyword Schema) :
    (k.sketch view).subschemas = k.subschemas.map fun entry => (entry.1, view entry.2) := by
  rw [sketch, subschemas_bare, subschemas_map]

namespace Schema

/-- What is seen of the schema below a keyword is found in the sketch of the keyword. -/
theorem map_below? {α : Type} (view : Schema → α) (s : Schema) (kind : KeywordKind)
    (segment : Option String) : (s.below? kind segment).map view =
      (((s.keyword? kind).map (Keyword.sketch view)).map Keyword.subschemas).bind fun list =>
        (list.find? (·.1 = segment)).map Prod.snd := by
  unfold below?
  cases s.keyword? kind with
  | none => rfl
  | some k =>
    simp only [Option.map_some, Option.bind_some, Keyword.subschemas_sketch, List.find?_map,
      Option.map_map]
    rfl

theorem skeleton_below? (s : Schema) (kind : KeywordKind) (segment : Option String) :
    s.skeleton.below? kind segment = (s.below? kind segment).map skeleton := by
  rw [map_below?, ← skeleton_keyword?]
  rfl

theorem skeleton_isReference (s : Schema) : s.skeleton.isReference = s.isReference := by
  simp [isReference, skeleton_reference?]

end Schema

namespace Store

theorem skeleton_follow (target : Target) (s : Store) :
    follow target s.skeleton =
      ((follow target s).1.map Schema.skeleton, (follow target s).2.skeleton) := by
  unfold follow
  cases target with
  | node id => exact Prod.ext (skeleton_node? s id) rfl
  | deferred cell =>
    have hcell : s.skeleton.deferred[cell]? = (s.deferred[cell]?).map fun d =>
        { answers := fun n => (d.answers n).map Schema.skeleton
          memo := d.memo.map (Option.map Schema.skeleton), calls := d.calls } :=
      Array.getElem?_map
    simp only [hcell]
    cases s.deferred[cell]? with
    | none => rfl
    | some d =>
      obtain ⟨answers, memo, calls⟩ := d
      cases memo with
      | some answer => rfl
      | none =>
        simp only [Option.map_some, Option.map_none]
        refine Prod.ext rfl ?_
        simp [skeleton]

theorem follow_bind (target : Target) (f : Option Schema → StateM Store (Option Schema))
    (s : Store) : (follow target >>= f) s = f (follow target s).1 (follow target s).2 :=
  rfl

theorem run_target (r : Reference) (s : Store) :
    target r s = match follow r.target s with
      | (none, s') => (none, s')
      | (some next, s') => chainEnd longestChain next s' := by
  rw [target, follow_bind]
  rcases follow r.target s with ⟨_ | next, s'⟩ <;> rfl

/-- A reference in a chain is followed by the rest of the chain. -/
theorem run_chainEnd {schema : Schema} {r : Reference} (h : schema.reference? = some r) (n : Nat)
    (s : Store) : chainEnd (n + 1) schema s = match follow r.target s with
      | (none, s') => (none, s')
      | (some next, s') => chainEnd n next s' := by
  rw [chainEnd, h]
  dsimp only
  rw [follow_bind]
  rcases follow r.target s with ⟨_ | next, s'⟩ <;> rfl

theorem skeleton_chainEnd (n : Nat) (schema : Schema) (s : Store) :
    chainEnd n schema.skeleton s.skeleton =
      ((chainEnd n schema s).1.map Schema.skeleton, (chainEnd n schema s).2.skeleton) := by
  induction n generalizing schema s with
  | zero => rfl
  | succ n ih =>
    cases hr : schema.reference? with
    | none =>
      have hr' : schema.skeleton.reference? = none := by rw [Schema.skeleton_reference?, hr]; rfl
      unfold chainEnd
      rw [hr, hr']
      rfl
    | some r =>
      have hr' : schema.skeleton.reference? = some r.bare := by
        rw [Schema.skeleton_reference?, hr]
        rfl
      rw [run_chainEnd hr, run_chainEnd hr', Reference.bare, skeleton_follow]
      rcases follow r.target s with ⟨_ | next, s'⟩
      · rfl
      · exact ih next s'

theorem skeleton_target (r : Reference) (s : Store) :
    (target r.bare s.skeleton).1 = (target r s).1.map Schema.skeleton := by
  rw [run_target, run_target, Reference.bare, skeleton_follow]
  rcases follow r.target s with ⟨_ | next, s'⟩
  · rfl
  · exact congrArg Prod.fst (skeleton_chainEnd longestChain next s')

theorem skeleton_reach (s : Store) (schema : Schema) (route : List Turn) :
    s.skeleton.reach schema.skeleton route = (s.reach schema route).map Schema.skeleton := by
  induction route generalizing schema with
  | nil => rfl
  | cons turn rest ih =>
    cases turn with
    | below kind segment =>
      simp only [reach, Schema.skeleton_below?]
      cases schema.below? kind segment with
      | none => rfl
      | some t => exact ih t
    | target =>
      simp only [reach, Schema.skeleton_reference?]
      cases schema.reference? with
      | none => rfl
      | some r =>
        simp only [Option.map_some, Option.bind_some, skeleton_target]
        cases (target r s).1 with
        | none => rfl
        | some t => exact ih t

/-- What the skeletons agree on includes the outline. -/
theorem outline_of_skeleton {s t : Store} {N M : Schema} (hs : s.skeleton = t.skeleton)
    (hN : N.skeleton = M.skeleton) : s.outline N = t.outline M := by
  have hplain : ∀ (s : Store) (N : Schema) (route : List Turn),
      s.skeleton.outline N.skeleton route = s.outline N route := by
    intro s N route
    unfold outline
    rw [skeleton_reach, Option.map_map]
    refine congrArg (Option.map · _) (funext fun t => ?_)
    simp [Schema.skeleton_isReference]
  funext route
  rw [← hplain s, ← hplain t, hs, hN]

end Store
end SchemaAtlas
