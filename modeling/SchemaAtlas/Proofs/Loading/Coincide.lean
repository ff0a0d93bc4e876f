import SchemaAtlas.Proofs.Loading.Ledger
import SchemaAtlas.Proofs.Loading.Request
import SchemaAtlas.Proofs.Loading.Uniform

/-!
# Two loaders of nested nodes

The reading of a node uses the loader of nested nodes at the nested places of an object and at
the places that a reference names, and in no other way. So two loaders that do the same there
make the readings of the node do the same. What has happened before such a call is told by the
visits to nested places, or by the search for the reference. `Load.runBy_eq` puts this together
for a whole load.
-/

namespace SchemaAtlas
namespace Loading

open LoadM Session

variable {α β : Type} {x y : LoadM α} {load other : NodeLoader} {s s₀ : Session} {uri : Uri}
variable {hops : Nat}

/-- Two readings that do the same in a session. -/
def Coincide (x y : LoadM α) (s : Session) : Prop :=
  (ExceptT.run x).run s = (ExceptT.run y).run s

theorem Coincide.refl (x : LoadM α) (s : Session) : Coincide x x s := rfl

theorem Coincide.bind {f g : α → LoadM β} (h : Coincide x y s)
    (hf : ∀ a s', Runs y s (.ok a) s' → Coincide (f a) (g a) s') :
    Coincide (x >>= f) (y >>= g) s := by
  unfold Coincide
  rw [run_bind, run_bind, h]
  rcases hr : (ExceptT.run y).run s with ⟨_ | a, s'⟩
  · rfl
  · exact hf a s' hr

theorem coincide_get_bind {f g : Session → LoadM α} (h : Coincide (f s) (g s) s) :
    Coincide (get >>= f) (get >>= g) s :=
  Coincide.bind (.refl _ _) fun a s' hr => by
    obtain ⟨ha, rfl⟩ := runs_get.mp hr
    cases ha
    exact h

theorem Coincide.map {f : α → β} (h : Coincide x y s) :
    Coincide (do return f (← x)) (do return f (← y)) s :=
  h.bind fun _ _ _ => .refl _ _

theorem Coincide.between {before after : Session → Session} (h : Coincide x y (before s)) :
    Coincide (LoadM.between before after x) (LoadM.between before after y) s := by
  unfold Coincide
  rw [run_between, run_between, h]

/-! ## Nested places -/

section

variable (load : NodeLoader) (draft : Draft) (asked : Location → Json → Prop)

/-- The session after some visits. -/
def After (s₀ s : Session) : Prop :=
  ∃ nodes, Digest.Visits (nestedLoad load) draft asked s₀ nodes s

/-- Readings of keywords that do the same, whatever was visited before. -/
structure Together (s₀ : Session) (α : Type) (x y : LoadM α) : Prop where
  after : ∀ {s a s'}, After load draft asked s₀ s → Runs y s (.ok a) s' →
    After load draft asked s₀ s'
  coincide : ∀ {s}, After load draft asked s₀ s → Coincide x y s

end

theorem together_congruence {draft : Draft} {asked : Location → Json → Prop}
    (h : ∀ {location value}, asked location value → ∀ {s}, After load draft asked s₀ s →
      Coincide (other location value 0) (load location value 0) s) :
    Digest.Congruence (Together load draft asked s₀) (nestedLoad other) (nestedLoad load) draft
      asked where
  silent := by
    intro α x held lost hg
    refine ⟨?_, fun _ => .refl _ _⟩
    rintro s a s' ⟨nodes, hv⟩ hr
    obtain ⟨nodes', hv', _⟩ := hg.ok hr
    exact ⟨_, hv.trans (hv'.mono fun _ _ hnone => hnone.elim)⟩
  boolean := by
    intro location b ha
    refine ⟨?_, fun _ => .refl _ _⟩
    rintro s a s' ⟨nodes, hv⟩ hr
    obtain ⟨_, rfl⟩ := runs_onStore.mp hr
    exact ⟨_, .boolean hv ha⟩
  load := by
    intro location value ha
    refine ⟨?_, fun hs => h ha hs⟩
    rintro s a s' ⟨nodes, hv⟩ hr
    exact ⟨_, .load hv ha hr⟩
  bind := by
    intro α β x y f g hxy hfg
    refine ⟨fun {s b s'} hs hr => ?_, fun {s} hs => ?_⟩
    · obtain ⟨a, s₁, hy, hg⟩ := runs_bind_ok.mp hr
      exact (hfg s a s₁ hy).after (hxy.after hs hy) hg
    · exact (hxy.coincide hs).bind fun a s₁ hy => (hfg s a s₁ hy).coincide (hxy.after hs hy)

theorem coincide_keywordsRun {context : OpenDocument} {inner : Location}
    {object : List (String × Json)}
    (h : ∀ place ∈ Digest.nested context.active inner object, ∀ {s'},
      After load context.draft (fun location value =>
        (location, value) ∈ Digest.nested context.active inner object) s s' →
      Coincide (other place.1 place.2 0) (load place.1 place.2 0) s') :
    Coincide (keywordsRun other context inner object) (keywordsRun load context inner object) s :=
  ((together_congruence fun ha => h _ ha).members rfl fun _ hp => hp).coincide ⟨_, .start s⟩

theorem coincide_loadObject {context : OpenDocument} {location : Location}
    {object : List (String × Json)}
    (h : ∀ {inner declared s₁}, Identified context.active.idKeys location object s inner declared s₁ →
      ∀ place ∈ Digest.nested context.active inner object, ∀ {s'},
        After load context.draft (fun location value =>
          (location, value) ∈ Digest.nested context.active inner object)
          (s₁.enter (location.pointerUri :: location.uri :: declared)) s' →
        Coincide (other place.1 place.2 0) (load place.1 place.2 0) s') :
    Coincide (loadObject other context location object) (loadObject load context location object)
      s := by
  rw [loadObject_eq, loadObject_eq]
  refine Coincide.bind (.refl _ _) fun found s₁ hf => ?_
  obtain ⟨inner, declared, hfound, hid⟩ := identified_of_runs hf
  cases hfound
  refine Coincide.bind (.refl _ _) fun id s₂ hr => ?_
  obtain ⟨hid', rfl⟩ := runs_onStore.mp hr
  cases hid'
  exact Coincide.bind (.between (coincide_keywordsRun (h hid))) fun _ _ _ => .refl _ _

/-! ## References -/

theorem coincide_buildTarget {document : OpenDocument}
    (h : ∀ {location value}, document.locate uri = some (location, value) →
      Coincide (other location value (hops + 1)) (load location value (hops + 1))
        (s.push document)) :
    Coincide (buildTarget other document uri hops) (buildTarget load document uri hops) s := by
  unfold buildTarget
  dsimp only
  split
  · rename_i hl
    exact .between (h hl)
  · exact .refl _ _

theorem coincide_buildInFirst {documents : List OpenDocument}
    (h : ∀ {before after document location value s₁}, documents = before ++ document :: after →
      Searches load uri hops s before s₁ → document.locate uri = some (location, value) →
      Coincide (other location value (hops + 1)) (load location value (hops + 1))
        (s₁.push document)) :
    Coincide (buildInFirst other uri hops documents) (buildInFirst load uri hops documents) s := by
  induction documents generalizing s with
  | nil => exact .refl _ _
  | cons document rest ih =>
    unfold buildInFirst
    refine Coincide.bind (coincide_buildTarget fun hlocate =>
      h (List.nil_append _).symm (.start s) hlocate) fun found s₁ hr => ?_
    cases found with
    | some schema => exact .refl _ _
    | none =>
      apply ih
      intro before after next location value s₂ hrest hs hlocate
      cases tryRun_of_buildTarget hr with
      | vain hs₁ =>
        have hlist : document :: rest = document :: before ++ next :: after := by
          rw [hrest, List.cons_append]
        exact h hlist (hs₁.trans hs) hlocate
      | found _ _ _ _ hne => exact absurd rfl hne

theorem coincide_chase {origin : Location}
    (h : ∀ {searched before after document location value s₁ s₂},
      Searches load uri hops s searched s₁ →
      candidates s.nearby s₁.remote? uri = before ++ document :: after →
      Searches load uri hops s before s₂ → document.locate uri = some (location, value) →
      Coincide (other location value (hops + 1)) (load location value (hops + 1))
        (s₂.push document)) :
    Coincide (chase other origin uri hops) (chase load origin uri hops) s := by
  unfold chase
  refine coincide_get_bind (Coincide.bind (coincide_buildInFirst
    fun {before after document location value s₁} hlist hs hlocate => ?_) fun found s₁ hr => ?_)
  · obtain ⟨rest, hrest⟩ := prefix_candidates s.nearby s.remote? uri
    have hcand : candidates s.nearby s.remote? uri = before ++ document :: (after ++ rest) := by
      rw [← hrest, hlist, List.append_assoc, List.cons_append]
    exact h (.start s) hcand hs hlocate
  · cases found with
    | some schema => exact .refl _ _
    | none =>
      dsimp only
      split
      · exact .refl _ _
      · rename_i hnear
        cases tryRun_of_buildInFirst hr with
        | found _ _ _ _ hne => exact absurd rfl hne
        | vain hs =>
          refine Coincide.bind (.refl _ _) fun document s₂ ho => ?_
          refine Coincide.bind (.refl _ _) fun opened s₃ hopen => ?_
          have hopens := opens_of_obtain ho
          obtain ⟨hopened, rfl⟩ := runs_modifyGet.mp hopen
          cases hopened
          refine Coincide.bind (coincide_buildTarget fun hlocate => ?_) fun _ _ _ => .refl _ _
          have hcand := congrArg (s.nearby ++ ·) (congrArg Option.toList hopens.remote?_eq.1)
          exact h hs ((if_neg hnear).trans hcand) (hs.opened hopens) hlocate

theorem coincide_resolve {location : Location} {written : String}
    (h : uri ∉ s.resolving → Coincide (chase other location uri hops)
      (chase load location uri hops) (s.beginResolving uri)) :
    Coincide (resolve other location written uri hops) (resolve load location written uri hops)
      s := by
  unfold resolve
  apply coincide_get_bind
  split
  · exact .refl _ _
  · exact .refl _ _
  · split
    · exact .refl _ _
    · split
      · exact .refl _ _
      · rename_i hnew
        exact Coincide.bind (.between (h (by simpa using hnew))) fun _ _ _ => .refl _ _

/-- All that the reading of a node needs of the loader of nested nodes is what the reading of
its keywords does, and the search for its reference. -/
theorem coincide_loadWith {location : Location} {value : Json}
    (hobject : ∀ {context object}, s.current? = some context → value = .object object →
      Entries.get? "$ref" object = none →
      Coincide (loadObject other context location object) (loadObject load context location object)
        s)
    (hreference : ∀ {object written uri}, value = .object object →
      Entries.get? "$ref" object = some (.string written) → location.resolve written = .ok uri →
      uri ∉ s.resolving →
      Coincide (chase other location uri hops) (chase load location uri hops)
        (s.beginResolving uri)) :
    Coincide (loadWith other location value hops) (loadWith load location value hops) s := by
  unfold loadWith
  apply coincide_get_bind
  split
  · exact .refl _ _
  · rename_i context hc
    split
    · rename_i object
      apply coincide_get_bind
      split
      · exact .refl _ _
      · rename_i written _ href
        refine .map ?_
        unfold loadReference
        cases hu : location.resolve written with
        | error fault => exact .refl _ _
        | ok uri =>
          exact Coincide.bind (coincide_resolve (hreference rfl href hu)) fun _ _ _ => .refl _ _
      · exact .refl _ _
      · rename_i _ href
        exact .map (hobject hc rfl href)
    · exact .refl _ _
    · exact .refl _ _

/-! ## Whole loads -/

/-- A position that a load meets, if a schema can be read there, and a session in which this
may be. -/
structure Arrives (lib : Library) (start : Position) (L : Ledger) (first : Nat) (p : Position)
    (s : Session) : Prop where
  meets : ∀ object, p.value = .object object → lib.Meets start p
  inside : s.Inside lib p.context
  kept : L.Kept first s

variable {lib : Library} {start p : Position} {L : Ledger} {first : Nat}

/-- A nested place is arrived at after some visits. -/
theorem Arrives.nested (h : Arrives lib start L first p s) (hL : L.Lawful lib start)
    {steps : Nat} {object : List (String × Json)} (hv : p.value = .object object)
    (href : Entries.get? "$ref" object = none) {inner : Location} {declared : List Uri}
    {s₁ s' : Session} (hid : Identified p.context.active.idKeys p.location object s inner declared s₁)
    {place : Location × Json} (hplace : place ∈ Digest.nested p.context.active inner object)
    (ha : After (loadNode steps) p.context.draft (fun location value =>
      (location, value) ∈ Digest.nested p.context.active inner object)
      (s₁.enter (p.location.pointerUri :: p.location.uri :: declared)) s') :
    Arrives lib start L first ⟨p.context, place.1, place.2⟩ s' := by
  obtain ⟨nodes, hvisits⟩ := ha
  rw [hid.inner_eq hv] at hplace hvisits
  have hasked : ∀ location value,
      (location, value) ∈ Digest.nested p.context.active p.inner object →
      lib.Meets start ⟨p.context, location, value⟩ :=
    fun _ _ hm => (h.meets object hv).tail (.nested (p.members?_of_object hv href) hm)
  have hl := framed_loadNode steps
  have hin := hid.inside h.inside (p.location.pointerUri :: p.location.uri :: declared)
  have hk : L.Keeps lib start first (loadNode steps) := Ledger.keeps_loadNode hL first steps
  exact ⟨fun _ _ => hasked _ _ hplace, hin.frame (hl.visits hvisits).1,
    hk.visits hl hasked hin ((h.kept.alike hid.idle.alike).enter _) hvisits⟩

/-- What a reference names is arrived at after the search for it. -/
theorem Arrives.followed (h : Arrives lib start L first p s) {steps : Nat}
    {object : List (String × Json)} {written : String} (hv : p.value = .object object)
    (href : Entries.get? "$ref" object = some (.string written))
    (hu : p.location.resolve written = .ok uri) {searched before after : List OpenDocument}
    {document : OpenDocument} {location : Location} {value : Json} {s₁ s₂ : Session}
    (hs₁ : Searches (loadNode steps) uri hops (s.beginResolving uri) searched s₁)
    (hc : candidates (s.beginResolving uri).nearby s₁.remote? uri = before ++ document :: after)
    (hs₂ : Searches (loadNode steps) uri hops (s.beginResolving uri) before s₂)
    (hlocate : document.locate uri = some (location, value)) :
    Arrives lib start L first ⟨document, location, value⟩ (s₂.push document) := by
  have hl := framed_loadNode steps
  have hin := h.inside.beginResolving uri
  have hbegun : L.Kept first (s.beginResolving uri) := h.kept.alike ⟨rfl, rfl, rfl, rfl⟩
  refine ⟨?_, (hin.frame (hl.searches hs₂).1).push document,
    (hbegun.alike (hl.searches_vain hs₂).1.alike).alike ⟨rfl, rfl, rfl, rfl⟩⟩
  rintro target (rfl : value = .object target)
  exact (h.meets object hv).tail (.follows (p.refers?_of_object hv href hu)
    (hl.target?_of_accepts hin hs₁ hc hs₂ hlocate rfl))

/-- A loader that does at every position what reading does with it inside, does what the load
does. -/
theorem coincide_loadNode {other : Nat → NodeLoader} (hL : L.Lawful lib start)
    (hzero : ∀ {location value hops s}, Coincide (other 0 location value hops)
      (throw .exhausted) s)
    (hstep : ∀ {steps p hops s}, Arrives lib start L first p s →
      Coincide (other (steps + 1) p.location p.value hops)
        (loadWith (other steps) p.location p.value hops) s)
    {steps : Nat} (h : Arrives lib start L first p s) :
    Coincide (other steps p.location p.value hops) (loadNode steps p.location p.value hops) s := by
  induction steps generalizing p s hops with
  | zero => exact hzero
  | succ steps ih =>
    refine (hstep h).trans (coincide_loadWith ?_ ?_)
    · intro context object hc hv href
      cases h.inside.current?.symm.trans hc
      refine coincide_loadObject ?_
      intro inner declared s₁ hid place hplace s' ha
      exact ih (h.nested hL hv href hid hplace ha)
    · intro object written uri hv href hu hnew
      refine coincide_chase ?_
      intro searched before after document location value s₁ s₂ hs₁ hc hs₂ hlocate
      exact ih (h.followed hv href hu hs₁ hc hs₂ hlocate)

end Loading

namespace Load

open Loading

/-- The load with another loader of nodes. -/
def runBy (load : Nat → NodeLoader) (l : Load) : Except Failure (Schema × Report) × Workspace :=
  match l.context.locate l.uri with
  | none => (.error (.unresolvedReference l.uri), l.workspace)
  | some start =>
    let (outcome, s) :=
      (ExceptT.run (load l.workspace.stepLimit start.1 start.2 0)).run l.session
    Workspace.conclude l.uri outcome s

/-- Nothing has been entered when the reading begins. -/
theorem kept_session (l : Load) (L : Ledger) : L.Kept l.workspace.store.nodes.size l.session := by
  rw [l.session_eq]
  exact ⟨fun _ he => (nomatch he), Nat.le_refl _, fun _ he => (nomatch he)⟩

section

variable {l : Load} {L : Ledger} {load : Nat → NodeLoader}
variable (hL : ∀ {start}, l.start? = some start → L.Lawful l.library start)
variable (hzero : ∀ {location value hops s},
  Coincide (load 0 location value hops) (throw .exhausted) s)
variable (hstep : ∀ {start}, l.start? = some start → ∀ {steps p hops s},
  Arrives l.library start L l.workspace.store.nodes.size p s →
    Coincide (load (steps + 1) p.location p.value hops)
      (loadWith (load steps) p.location p.value hops) s)

include hL hzero hstep

/-- A loader that does what reading does wherever the load arrives reads what the load
reads. -/
theorem coincide_reading {start : Location × Json} (hl : l.context.locate l.uri = some start) :
    Coincide (load l.workspace.stepLimit start.1 start.2 0) (l.reading start) l.session := by
  have hstart : l.start? = some ⟨l.context, start.1, start.2⟩ := by
    rw [start?, hl]
    rfl
  have harrives : Arrives l.library ⟨l.context, start.1, start.2⟩ L
      l.workspace.store.nodes.size ⟨l.context, start.1, start.2⟩ l.session :=
    ⟨fun _ _ => .refl, l.inside, l.kept_session _⟩
  exact coincide_loadNode (hL hstart) hzero (hstep hstart) harrives

theorem runBy_eq : l.runBy load = l.run := by
  rw [runBy, run]
  cases hl : l.context.locate l.uri with
  | none => rfl
  | some start =>
    exact congrArg (fun run => Workspace.conclude l.uri run.1 run.2)
      (coincide_reading hL hzero hstep hl)

end

end Load
end SchemaAtlas
