import SchemaAtlas.Proofs.Graph.Placed
import SchemaAtlas.Proofs.Lookup.Distinct

/-!
# Reading without a memory

A load looks a place up among the finished nodes before it reads it. `loadAnew` looks nothing up:
it forgets the finished nodes for the time of each reading. Where no schema is a reference, nodes
are nested as deep as their values, so reading anew comes to a result within as many steps as the
value has parts (`settles_loadAnew`), and a reading with a memory fails for want of steps only.
-/

namespace SchemaAtlas

/-- No schema that keywords read, from a position on, is a reference. -/
def Position.Unreferenced (root : Position) : Prop :=
  ∀ p, root.Contains p → p.value.member? "$ref" = none

namespace Position

variable {root p q : Position}

theorem Unreferenced.get?_ref (h : root.Unreferenced) (hp : root.Contains p)
    {object : List (String × Json)} (hv : p.value = .object object) :
    Entries.get? "$ref" object = none := by
  have hnone := h p hp
  rwa [hv] at hnone

/-- The reading of an object that is no reference goes on to nested positions. -/
theorem Unreferenced.nests (h : root.Unreferenced) (hp : root.Contains p)
    {object : List (String × Json)} (hv : p.value = .object object) {place : Location × Json}
    (hplace : place ∈ Digest.nested p.context.active p.inner object) :
    p.Nests ⟨p.context, place.1, place.2⟩ :=
  ⟨object, p.members?_of_object hv (h.get?_ref hp hv), rfl, hplace⟩

end Position

/-- The session with other finished nodes. -/
def Session.recall (built : List (Uri × Schema)) (s : Session) : Session := { s with built }

namespace Loading

open LoadM Session

/-- Reads a node like `loadNode`, but knows of no finished node. -/
def loadAnew (steps : Nat) (location : Location) (value : Json) (hops : Nat) :
    LoadM (Option Schema) :=
  match steps with
  | 0 => throw .exhausted
  | steps + 1 => do
    let known := (← get).built
    between (Session.recall []) (Session.recall known)
      (loadWith (loadAnew steps) location value hops)

variable {load other : NodeLoader} {location : Location} {value : Json} {hops : Nat}
variable {s s' t t' : Session} {r : Except Stop (Option Schema)} {root p : Position}

theorem runs_loadAnew {steps : Nat} (h : Runs (loadAnew (steps + 1) location value hops) t r t') :
    ∃ t₁, Runs (loadWith (loadAnew steps) location value hops) (t.recall []) r t₁ ∧
      t' = t₁.recall t.built :=
  runs_between.mp (runs_get_bind.mp h)

/-- To come to a result, reading anew takes a step. -/
theorem runs_loadAnew_ok {steps : Nat} {found : Option Schema}
    (h : Runs (loadAnew steps location value hops) t (.ok found) t') :
    ∃ fewer t₁, Runs (loadWith (loadAnew fewer) location value hops) (t.recall []) (.ok found) t₁ ∧
      t' = t₁.recall t.built := by
  cases steps with
  | zero => cases (runs_throw.mp h).1
  | succ fewer => exact ⟨fewer, runs_loadAnew h⟩

/-! ## Frames -/

/-- A session inside which finished nodes were forgotten for a time. -/
theorem frame_recall (h : (s.recall []).Frame s') : s.Frame (s'.recall s.built) where
  policy := h.policy
  cache := h.cache
  stack := h.stack
  resolving := h.resolving
  remote? := h.remote?
  report := h.report
  built := id
  store := h.store
  inProgress := h.inProgress

theorem framed_loadAnew (steps : Nat) : Framed (loadAnew steps) := by
  induction steps with
  | zero => exact framed_exhausted
  | succ steps ih =>
    have hl := framed_loadWith ih
    constructor
    · intro location value hops t r t' h
      obtain ⟨t₁, hr, rfl⟩ := runs_loadAnew h
      exact frame_recall (hl.frame hr)
    · intro location value hops t found t' h
      obtain ⟨t₁, hr, rfl⟩ := runs_loadAnew h
      have hcalm := hl.calm hr
      exact hcalm
    · intro location value hops context t t' hc h
      obtain ⟨t₁, hr, rfl⟩ := runs_loadAnew h
      have hforgot : (t.recall []).current? = some context := hc
      obtain ⟨ha, severity, message, rfl⟩ := hl.refusal hforgot hr
      exact ⟨ha, severity, message, rfl⟩
    · intro location value hops context t r t' hc h
      obtain ⟨t₁, hr, rfl⟩ := runs_loadAnew h
      have hforgot : (t.recall []).current? = some context := hc
      exact hl.accepts hforgot hr

/-! ## Ends -/

/-- Where no schema is a reference, a reading is ended by the reading of a nested schema only. -/
theorem Framed.error_of_loadWith (hl : Framed load) (hplain : root.Unreferenced)
    (hp : root.Contains p) (hc : s.current? = some p.context) {e : Stop}
    (h : Runs (loadWith load p.location p.value hops) s (.error e) s') :
    ∃ q s₁ s₂, p.Nests q ∧ s₁.current? = some p.context ∧
      Runs (load q.location q.value 0) s₁ (.error e) s₂ := by
  have hobject : ∀ {object written}, p.value = .object object →
      Entries.get? "$ref" object ≠ some written := by
    intro object written hv href
    cases href.symm.trans (hplain.get?_ref hp hv)
  cases nodeRun_of_runs h with
  | badReference _ hv href => exact absurd href (hobject hv)
  | referenceEnds _ hv _ href => exact absurd href (hobject hv)
  | objectEnds hc' hv _ _ hrun =>
    cases hc.symm.trans hc'
    cases hrun with
    | ends hid hkeywords =>
      rw [hid.inner_eq hv] at hkeywords
      obtain ⟨nodes, s₁, location, value, hvisits, hasked, hr⟩ :=
        (keywordsRun_gathers load _ _ _).error hkeywords
      refine ⟨⟨p.context, location, value⟩, s₁, _, hplain.nests hp hv hasked, ?_, hr⟩
      rw [(hl.visits hvisits).1.current?]
      exact (hid.frame.1.current?).trans hc

/-- A reading that stops at nodes of other places stops for no other reason. -/
theorem error_of_loadPlaced (hplain : root.Unreferenced) {steps : Nat} (hp : root.Contains p)
    (hc : s.current? = some p.context) {e : Stop}
    (h : Runs (loadPlaced steps p.location p.value hops) s (.error e) s') : e = .exhausted := by
  induction steps generalizing p s s' hops with
  | zero => exact Except.error.inj (runs_throw.mp h).1
  | succ steps ih =>
    rcases runs_loadPlaced h with ⟨_, hend, _⟩ | ⟨hr, _⟩
    · exact Except.error.inj hend
    · obtain ⟨q, s₁, s₂, hq, hc₁, hr⟩ :=
        (placing_loadPlaced steps).toFramed.error_of_loadWith hplain hp hc hr
      rw [← hq.place.1] at hc₁
      exact ih (hp.tail hq) hc₁ hr

/-- Nothing but a want of steps stops a reading. -/
theorem error_of_loadNode (hplain : root.Unreferenced) {steps : Nat} (hp : root.Contains p)
    (hc : s.current? = some p.context) {e : Stop}
    (h : Runs (loadNode steps p.location p.value hops) s (.error e) s') : e = .exhausted := by
  induction steps generalizing p s s' hops with
  | zero => exact Except.error.inj (runs_throw.mp h).1
  | succ steps ih =>
    obtain ⟨q, s₁, s₂, hq, hc₁, hr⟩ := (framed_loadNode steps).error_of_loadWith hplain hp hc h
    rw [← hq.place.1] at hc₁
    exact ih (hp.tail hq) hc₁ hr

end Loading
end SchemaAtlas
