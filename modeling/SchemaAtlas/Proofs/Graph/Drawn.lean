import SchemaAtlas.Proofs.Graph.Placed
import SchemaAtlas.Proofs.Graph.Sharing

/-!
# Nodes drawn from documents

In a document without identifiers whose references stay in it, every node that a load makes
is drawn from the value at its place: a boolean from a boolean, a reference from one, and an
object from the reading of the members, in which nested places are answered with nodes of
their own. `draws_of_makes` has this of whole loads.
-/

namespace SchemaAtlas

/-- Completing a node adds that node only. -/
theorem Store.node?_complete_cases {st : Store} {N t : Schema} {id : Nat}
    (h : (st.complete N).node? id = some t) : st.node? id = some t ∨ t = N := by
  by_cases hid : id = N.id
  · subst hid
    have hlt := lt_size_of_node? h
    rw [size_complete] at hlt
    exact Or.inr (Option.some.inj (h.symm.trans (node?_complete st N hlt)))
  · exact Or.inl ((node?_complete_of_ne st hid).symm.trans h)

theorem Session.Idle.policy {s s' : Session} (h : s.Idle s') : s'.policy = s.policy := by
  rw [Idle] at h
  rw [h]

namespace Loading

open LoadM

variable {load : NodeLoader} {location : Location} {value : Json} {hops : Nat} {s s' : Session}

theorem ResolveRun.uri_eq {written : String} {uri : Uri} {r : Reference}
    (h : ResolveRun load location written uri hops s (.ok r) s') : r.uri = uri := by
  cases h with
  | known => exact Account.referenceTo_uri _ _ _
  | reading => rfl
  | chased => exact Account.referenceTo_uri _ _ _

end Loading

namespace Load

open Loading LoadM

variable {l : Load} {p : Position} {s s' : Session}

/-- A reading of a document that keeps the places of its URIs apart finds no node of another
place. -/
theorem Apart.coincide_loadPlaced (h : l.Apart) {start : Location × Json}
    (hl : l.context.locate l.uri = some start) :
    Coincide (loadPlaced l.workspace.stepLimit start.1 start.2 0) (l.reading start)
      l.session := by
  rw [loadPlaced_eq_loadUnmixed]
  refine coincide_reading h.lawful ?_ ?_ hl
  · exact Coincide.refl _ _
  · intro start hstart steps p hops s harrives
    exact coincide_loadUnmixed (not_misplaces hstart harrives) (.refl _ _)

/-! ## Drawn nodes -/

/-- A node with the content that its place in the document has. -/
inductive Draws (l : Load) : Schema → Prop
  | boolean {path : List String} {b : Bool} {id : Nat} {draft : Draft} :
      l.document.at? path = some (.bool b) →
      Draws l (.node id (.inDocument l.documentUri path) draft (.boolean b))
  | reference {path : List String} {value : Json} {written : String} {r : Reference} {id : Nat}
      {draft : Draft} : l.document.at? path = some value →
      value.member? "$ref" = some (.string written) →
      (l.documentUri.join written).map Uri.normalized = .ok r.uri →
      Draws l (.node id (.inDocument l.documentUri path) draft (.reference r))
  | object {path : List String} {members : List (String × Json)} {load : NodeLoader}
      {s s' : Session} {builder : Builder} {id : Nat} {draft : Draft} :
      l.document.at? path = some (.object members) → Entries.get? "$ref" members = none →
      Placing load → s.policy = l.policy → s.current? = some l.context →
      Runs (keywordsRun load l.context (.inDocument l.documentUri path) members) s (.ok builder)
        s' →
      Draws l (.node id (.inDocument l.documentUri path) draft builder.body)

/-- All nodes that the load has made so far are drawn. -/
structure Sketches (l : Load) (s : Session) : Prop where
  policy : s.policy = l.policy
  nodes : ∀ {id t}, l.first ≤ id → s.store.node? id = some t → l.Draws t

namespace Sketches

theorem alike (h : l.Sketches s) (hp : s'.policy = s.policy) (hs : s'.store = s.store) :
    l.Sketches s' where
  policy := hp.trans h.policy
  nodes := by
    rw [hs]
    exact h.nodes

theorem add (h : l.Sketches s) {location : Location} {draft : Draft} {body : Body Schema}
    (hd : l.Draws (s.store.add location draft body).1) :
    l.Sketches { s with store := (s.store.add location draft body).2 } where
  policy := h.policy
  nodes := by
    intro id t hid ht
    rcases Store.node?_add_cases ht with hold | ⟨rfl, _⟩
    · exact h.nodes hid hold
    · exact hd

theorem enter (h : l.Sketches s) (uris : List Uri) : l.Sketches (s.enter uris) where
  policy := h.policy
  nodes := fun hid ht => h.nodes hid ((Store.node?_reserve _ _).symm.trans ht)

theorem leave (h : l.Sketches s) {N : Schema} (hN : l.Draws N) (uris : List Uri) :
    l.Sketches (s.leave N uris) where
  policy := h.policy
  nodes := by
    intro id t hid ht
    rcases Store.node?_complete_cases ht with hold | rfl
    · exact h.nodes hid hold
    · exact hN

end Sketches

/-- A loader that draws the nodes that it makes, wherever the load comes to. -/
def Sketching (l : Load) (load : NodeLoader) : Prop :=
  ∀ {p : Position} {hops : Nat} {s s' : Session} {found : Option Schema}, l.Meets p →
    s.Inside l.library p.context → l.Sketches s →
    Runs (load p.location p.value hops) s (.ok found) s' → l.Sketches s'

variable {load : NodeLoader} {path : List String} {hops : Nat}

theorem Sketching.visits (hk : l.Sketching load) (hl : Framed load) (hlocal : l.IsLocal)
    {draft : Draft} {asked : Location → Json → Prop} {nodes : List Schema}
    (ha : ∀ location value, asked location value → l.Meets ⟨l.context, location, value⟩)
    (hin : s.Inside l.library l.context) (h : l.Sketches s)
    (hv : Digest.Visits (nestedLoad load) draft asked s nodes s') : l.Sketches s' := by
  induction hv with
  | start => exact h
  | issue _ _ _ _ _ _ ih => exact ih.alike rfl rfl
  | @boolean s₁ nodes location b _ hasked ih =>
    obtain ⟨path, hplaces⟩ := hlocal.places (ha _ _ hasked)
    have hlocation : location = .inDocument l.documentUri path := hplaces.location
    subst hlocation
    exact ih.add (.boolean hplaces.value)
  | @load s₁ s₂ nodes location value found hvisits hasked hr ih =>
    exact hk (ha _ _ hasked) (hin.frame (hl.visits hvisits).1) ih hr

theorem Sketching.object (hk : l.Sketching load) (hl : Placing load) (hlocal : l.IsLocal)
    (hp : l.Meets p) {members : List (String × Json)} (hv : p.value = .object members)
    (href : Entries.get? "$ref" members = none) (hin : s.Inside l.library p.context)
    (h : l.Sketches s) {N : Schema}
    (hr : ObjectRun load p.context p.location members s (.ok N) s') : l.Sketches s' := by
  obtain ⟨path, hplaces⟩ := hlocal.places hp
  cases hr with
  | @finished inner declared builder s₁ s₂ hid hread =>
    have hinner : inner = .inDocument l.documentUri path :=
      (hid.inner_eq hv).trans (hlocal.inner_eq hplaces)
    have hm := p.members?_of_object hv href
    have hentered : l.Sketches (s₁.enter (p.location.pointerUri :: p.location.uri :: declared)) :=
      (h.alike hid.idle.policy hid.idle.alike.store).enter _
    have hin₁ := hid.inside hin (p.location.pointerUri :: p.location.uri :: declared)
    obtain ⟨nodes, hvisits, _⟩ := (keywordsRun_gathers load p.context inner members).ok hread
    have hasked : ∀ location value,
        (location, value) ∈ Digest.nested p.context.active inner members →
        l.Meets ⟨p.context, location, value⟩ := by
      intro location value ha
      obtain ⟨start, hstart, hmeets⟩ := hp
      rw [hid.inner_eq hv] at ha
      exact ⟨start, hstart, hmeets.tail (.nested hm ha)⟩
    rw [hplaces.context] at hin₁ hread hvisits hasked
    refine (hk.visits hl.toFramed hlocal hasked hin₁ hentered hvisits).leave ?_ _
    have hvalue := hplaces.value
    rw [hv] at hvalue
    subst hinner
    exact .object hvalue href hl hentered.policy hin₁.current? hread

theorem Sketching.resolve (hk : l.Sketching load) (hl : Framed load) (hp : l.Meets p)
    {written : String} {uri : Uri} {r : Reference} (hu : p.refers? = some uri)
    (hin : s.Inside l.library p.context) (h : l.Sketches s)
    (hr : ResolveRun load p.location written uri hops s (.ok r) s') : l.Sketches s' := by
  cases hr with
  | known => exact h
  | reading => exact h
  | @chased target s₁ _ _ hc =>
    cases hc with
    | @reached searched before after document location value _ s₀ s₂ s₃ hs₀ hcand hs hlocate hr =>
      have hbegun := hin.beginResolving uri
      have htarget := hl.target?_eq hbegun hs₀ hcand hs hlocate hr (by simp) (by simp)
      have hmeets : l.Meets ⟨document, location, value⟩ := by
        obtain ⟨start, hstart, hmeets⟩ := hp
        exact ⟨start, hstart, hmeets.tail (.follows hu htarget)⟩
      have hidle := (hl.searches_vain hs).1
      have hs₂ : l.Sketches (s₂.push document) := h.alike hidle.policy hidle.alike.store
      have hin₂ := (hbegun.frame (hl.searches hs).1).push document
      exact (hk hmeets hin₂ hs₂ hr).alike rfl rfl

/-- Reading a node draws it if reading nested nodes does. -/
theorem sketching_loadWith (hk : l.Sketching load) (hl : Placing load) (hlocal : l.IsLocal) :
    l.Sketching (loadWith load) := by
  intro p hops s s' found hp hin h hload
  obtain ⟨path, hplaces⟩ := hlocal.places hp
  have hlocation := hplaces.location
  cases nodeRun_of_runs hload with
  | outside => exact h
  | known => exact h
  | @reference context object written schema _ _ hv _ href hr =>
    cases hr with
    | @refers uri r s₁ hresolve hresolved =>
      have hu := p.refers?_of_object hv href hresolve
      have hs₁ := hk.resolve hl.toFramed hp hu hin h hresolved
      obtain ⟨text, _, hwritten, hjoin⟩ := hplaces.reference hu
      apply hs₁.add
      rw [hlocation]
      exact .reference hplaces.value hwritten (hresolved.uri_eq ▸ hjoin)
  | @object context object schema _ hc hv _ href hr =>
    cases hin.current?.symm.trans hc
    exact hk.object hl hlocal hp hv href hin h hr
  | @boolean context b _ hv _ =>
    have hvalue := hplaces.value
    rw [hv] at hvalue
    apply h.add
    rw [hlocation]
    exact .boolean hvalue
  | refused => exact h.alike rfl rfl

theorem sketching_loadPlaced (hlocal : l.IsLocal) (steps : Nat) :
    l.Sketching (loadPlaced steps) := by
  induction steps with
  | zero =>
    intro p hops s s' found _ _ _ hr
    cases (runs_throw.mp hr).1
  | succ steps ih =>
    intro p hops s s' found hp hin h hr
    exact sketching_loadWith ih (placing_loadPlaced steps) hlocal hp hin h
      (runs_loadPlaced_ok hr).1

/-! ## Whole loads -/

/-- What a load reads when it succeeds stands where it was looked for, and all nodes that are
made are drawn. -/
theorem draws_of_makes (h : l.IsLocal) {s : Schema} {report : Report}
    (hr : l.run.1 = .ok (s, report)) :
    (∃ start, l.context.locate l.uri = some start ∧ s.location.place = start.1.place) ∧
      ∀ t, l.Makes t → l.Draws t := by
  obtain ⟨start, s', hl, hruns, _, _, heq⟩ := Load.run_ok hr
  have hplaced : Runs (loadPlaced l.workspace.stepLimit start.1 start.2 0) l.session
      (.ok (some s)) s' := (h.apart.coincide_loadPlaced hl).trans hruns
  have hmeets : l.Meets ⟨l.context, start.1, start.2⟩ := by
    refine ⟨_, ?_, .refl⟩
    rw [Load.start?, hl]
    rfl
  have hsession : l.Sketches l.session := by
    rw [l.session_eq]
    refine ⟨rfl, ?_⟩
    intro id t hid ht
    change l.workspace.store.node? id = some t at ht
    rw [Store.node?_of_size_le hid] at ht
    cases ht
  have hs' := sketching_loadPlaced h _ hmeets l.inside hsession hplaced
  refine ⟨⟨start, hl, (placing_loadPlaced _).place hplaced⟩, ?_⟩
  rintro t ⟨hfirst, hstored⟩
  rw [heq] at hstored
  exact hs'.nodes hfirst hstored

end Load
end SchemaAtlas
