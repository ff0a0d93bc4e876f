import SchemaAtlas.Proofs.Graph.Recorded
import SchemaAtlas.Proofs.Graph.Targets
import SchemaAtlas.Proofs.Loading.Uniform

/-!
# One object for each place

The finished nodes are looked up before a nested schema is read, the nodes being read are
not. So a load that comes to an object which it is reading makes a second node for it.
`Loading.loadOnce` is the load that stops there. `mirrors_loadOnce` says that it succeeds if
and only if the load does and no place has two objects in the end.
-/

namespace SchemaAtlas

/-! ## Places with objects -/

namespace Session

/-- The number of an object at the place that a URI names, finished or being read. -/
inductive Occupies (first : Nat) (s : Session) (uri : Uri) (id : Nat) : Prop
  | finished {t : Schema} : first ≤ id → s.store.node? id = some t → t.isObject = true →
      t.location.pointerUri = uri → Occupies first s uri id
  | reading : (uri, id) ∈ s.inProgress → Occupies first s uri id

/-- No place has two objects. -/
def Single (first : Nat) (s : Session) : Prop :=
  ∀ uri id id', Occupies first s uri id → Occupies first s uri id' → id = id'

/-- Whether an object that is no reference is to be read again while it is being read. -/
def rereads (location : Location) (value : Json) (s : Session) : Bool :=
  match value with
  | .object members => !Entries.contains "$ref" members &&
      !Entries.contains location.pointerUri s.built &&
      Entries.contains location.pointerUri s.inProgress
  | _ => false

variable {first : Nat} {s s' : Session} {uri : Uri} {id : Nat}

theorem Occupies.frame (h : Occupies first s uri id) (hf : Frame s s') (hn : s.Numbered) :
    Occupies first s' uri id := by
  cases h with
  | finished hfirst hnode hobject huri =>
    exact .finished hfirst (hf.store.node?_some hnode) hobject huri
  | reading hmem =>
    rw [← hf.inProgress hn] at hmem
    exact .reading hmem

/-- Where a place has two objects, it has them for good. -/
theorem Single.back (h : Single first s') (hf : Frame s s') (hn : s.Numbered) :
    Single first s :=
  fun uri id id' hid hid' => h uri id id' (hid.frame hf hn) (hid'.frame hf hn)

/-- A step that makes no object keeps places single. -/
theorem Single.step (h : Single first s) (hp : s'.inProgress = s.inProgress)
    (hn : ∀ {id t}, s'.store.node? id = some t → t.isObject = true →
      s.store.node? id = some t) : Single first s' := by
  have hback : ∀ {uri id}, Occupies first s' uri id → Occupies first s uri id := by
    intro uri id ho
    cases ho with
    | finished hfirst hnode hobject huri =>
      exact .finished hfirst (hn hnode hobject) hobject huri
    | reading hmem =>
      rw [hp] at hmem
      exact .reading hmem
  exact fun uri id id' hid hid' => h uri id id' (hback hid) (hback hid')

theorem single_congr (hs : s'.store = s.store) (hp : s'.inProgress = s.inProgress) :
    Single first s' ↔ Single first s := by
  constructor
  · intro h
    refine h.step hp.symm ?_
    rw [hs]
    exact fun hnode _ => hnode
  · intro h
    refine h.step hp ?_
    rw [hs]
    exact fun hnode _ => hnode

theorem Single.alike (h : Single first s) (ha : Alike s s') : Single first s' :=
  (single_congr ha.store ha.inProgress).mpr h

theorem Single.add (h : Single first s) (location : Location) (draft : Draft)
    {body : Body Schema} (hb : (s.store.add location draft body).1.isObject = false) :
    Single first { s with store := (s.store.add location draft body).2 } := by
  refine h.step rfl ?_
  exact fun hnode hobject => Store.node?_of_add hb hnode hobject

/-- What is read under the URIs of a new object. -/
theorem mem_enter_of_front {uris : List Uri} (huri : uri ∈ uris)
    (hnew : Entries.contains uri s.inProgress = false) :
    (uri, s.store.nodes.size) ∈ (s.enter uris).inProgress := by
  have hfound : Entries.contains uri (s.enter uris).inProgress = true :=
    Entries.contains_putNew s.store.nodes.size (Or.inl huri)
  obtain ⟨id, hid⟩ := Option.isSome_iff_exists.mp hfound
  have hmem := Entries.mem_of_get? hid
  rcases Account.mem_enter hmem with ⟨_, heq⟩ | hold
  · rw [← (show id = s.store.nodes.size from heq)]
    exact hmem
  · have hcontains : Entries.contains uri s.inProgress = true := by
      rw [Entries.contains, Option.isSome_iff_ne_none]
      intro hnone
      exact Entries.get?_eq_none.mp hnone (List.mem_map_of_mem hold)
    rw [hcontains] at hnew
    cases hnew

/-- An object at a place that has none yet may be read. -/
theorem Single.enter (h : Single first s) (hs : s.Records first) {uris : List Uri}
    (huris : ∀ other ∈ uris, other = uri)
    (hbuilt : Entries.contains uri s.built = false)
    (hnew : Entries.contains uri s.inProgress = false) : Single first (s.enter uris) := by
  have hvacant : ∀ id, ¬ Occupies first s uri id := by
    intro id ho
    cases ho with
    | finished hfirst hnode hobject huri =>
      have hcontains := (hs.nodes hfirst hnode).built hobject
      rw [huri, hbuilt] at hcontains
      cases hcontains
    | reading hmem =>
      rw [Entries.contains, Option.isSome_eq_false_iff, Option.isNone_iff_eq_none] at hnew
      exact Entries.get?_eq_none.mp hnew (List.mem_map_of_mem hmem)
  have hcases : ∀ {other id}, Occupies first (s.enter uris) other id →
      other = uri ∧ id = s.store.nodes.size ∨ Occupies first s other id := by
    intro other id ho
    cases ho with
    | finished hfirst hnode hobject huri =>
      exact Or.inr (.finished hfirst ((Store.node?_reserve _ _).symm.trans hnode) hobject huri)
    | reading hmem =>
      rcases Account.mem_enter hmem with ⟨huri, hid⟩ | hold
      · exact Or.inl ⟨huris _ huri, hid⟩
      · exact Or.inr (.reading hold)
  intro other id id' hid hid'
  rcases hcases hid with ⟨rfl, rfl⟩ | hold
  · rcases hcases hid' with ⟨_, rfl⟩ | hold'
    · rfl
    · exact absurd hold' (hvacant id')
  · rcases hcases hid' with ⟨rfl, _⟩ | hold'
    · exact absurd hold (hvacant id)
    · exact h other id id' hold hold'

/-- Finishing an object leaves its place with the objects that it had. -/
theorem single_leave_iff (hn : s.Numbered) {uris : List Uri} (hfirst : first ≤ s.store.nodes.size)
    (hf : Frame (s.enter uris) s') {N : Schema} (hid : N.id = s.store.nodes.size)
    (hobject : N.isObject = true) (huris : ∀ other ∈ uris, other = N.location.pointerUri)
    (hmem : (N.location.pointerUri, N.id) ∈ (s.enter uris).inProgress) :
    Single first (s'.leave N uris) ↔ Single first s' := by
  have hprogress : (s'.leave N uris).inProgress = s.inProgress := (hf.leave hid).inProgress hn
  have hentered := hf.inProgress (hn.enter uris)
  obtain ⟨hstored, hkeep⟩ := hf.node?_leave hid
  have hiff : ∀ {uri id}, Occupies first (s'.leave N uris) uri id ↔ Occupies first s' uri id := by
    intro uri id
    constructor
    · intro ho
      cases ho with
      | @finished t hfirst hnode hobject' huri =>
        by_cases heq : id = N.id
        · subst heq
          cases Option.some.inj (hstored.symm.trans hnode)
          rw [← hentered, huri] at hmem
          exact .reading hmem
        · exact .finished hfirst ((Store.node?_complete_of_ne _ heq).symm.trans hnode) hobject' huri
      | reading hold =>
        rw [hprogress] at hold
        apply Occupies.reading
        rw [hentered]
        obtain ⟨front, heq, _⟩ :=
          Session.register_eq s.store.nodes.size uris { s with store := s.store.reserve.2 }
        rw [Session.enter, heq]
        exact List.mem_append_right _ hold
    · intro ho
      cases ho with
      | @finished t hfirst hnode hobject' huri =>
        exact .finished hfirst (hkeep hnode) hobject' huri
      | reading hold =>
        rw [hentered] at hold
        rcases Account.mem_enter hold with ⟨huri, heq⟩ | hold
        · have heq' : id = N.id := heq.trans hid.symm
          subst heq'
          exact .finished (hid ▸ hfirst) hstored hobject (huris uri huri).symm
        · rw [← hprogress] at hold
          exact .reading hold
  constructor
  · exact fun h uri id id' hid hid' => h uri id id' (hiff.mpr hid) (hiff.mpr hid')
  · exact fun h uri id id' hid hid' => h uri id id' (hiff.mp hid) (hiff.mp hid')

end Session

/-! ## Loads that stop at a second reading -/

namespace Loading

open LoadM Session

/-- Reads a node like `loadNode`, but stops at an object that is being read. -/
def loadOnce (steps : Nat) (location : Location) (value : Json) (hops : Nat) :
    LoadM (Option Schema) :=
  match steps with
  | 0 => throw .exhausted
  | steps + 1 => do
    if (← get).rereads location value then throw .exhausted
    else loadWith (loadOnce steps) location value hops

/-- From a session, one reading succeeds if and only if another does and leaves all places
single. -/
def Agrees (first : Nat) {α : Type} (x y : LoadM α) (s : Session) : Prop :=
  ∀ a s', Runs x s (.ok a) s' ↔ Runs y s (.ok a) s' ∧ Single first s'

variable {α β : Type} {first : Nat} {x y : LoadM α} {s s' : Session}

theorem agrees_self (h : ∀ a s', Runs x s (.ok a) s' → Single first s') :
    Agrees first x x s :=
  fun a s' => ⟨fun hr => ⟨hr, h a s' hr⟩, fun hr => hr.1⟩

/-- Steps that make no object may follow. -/
theorem Agrees.bind_same (h : Agrees first x y s) {f : α → LoadM β}
    (hf : ∀ a s₁ b s', Runs (f a) s₁ (.ok b) s' → (Single first s' ↔ Single first s₁)) :
    Agrees first (x >>= f) (y >>= f) s := by
  intro b s'
  rw [runs_bind_ok, runs_bind_ok]
  constructor
  · rintro ⟨a, s₁, hx, hb⟩
    obtain ⟨hy, hs₁⟩ := (h a s₁).mp hx
    exact ⟨⟨a, s₁, hy, hb⟩, (hf a s₁ b s' hb).mpr hs₁⟩
  · rintro ⟨⟨a, s₁, hy, hb⟩, hs'⟩
    exact ⟨a, s₁, (h a s₁).mpr ⟨hy, (hf a s₁ b s' hb).mp hs'⟩, hb⟩

theorem agrees_get_bind {f g : Session → LoadM α} (h : Agrees first (f s) (g s) s) :
    Agrees first (get >>= f) (get >>= g) s := by
  intro a s'
  rw [runs_get_bind, runs_get_bind]
  exact h a s'

/-- Steps without success agree. -/
theorem agrees_of_error (hx : ∀ a s', ¬ Runs x s (.ok a) s')
    (hy : ∀ a s', ¬ Runs y s (.ok a) s') : Agrees first x y s :=
  fun a s' => ⟨fun h => absurd h (hx a s'), fun h => absurd h.1 (hy a s')⟩

theorem Agrees.between {before after : Session → Session} (h : Agrees first x y (before s))
    (ha : ∀ s₁, Single first (after s₁) ↔ Single first s₁) :
    Agrees first (between before after x) (between before after y) s := by
  intro a s'
  rw [runs_between, runs_between]
  constructor
  · rintro ⟨s₁, hx, rfl⟩
    obtain ⟨hy, hs₁⟩ := (h a s₁).mp hx
    exact ⟨⟨s₁, hy, rfl⟩, (ha s₁).mpr hs₁⟩
  · rintro ⟨⟨s₁, hy, rfl⟩, hs'⟩
    exact ⟨s₁, (h a s₁).mpr ⟨hy, (ha s₁).mp hs'⟩, rfl⟩

end Loading

/-! ## Loads of a document -/

namespace Load

/-- The number of the first node that a load makes. -/
def first (l : Load) : Nat := l.workspace.store.nodes.size

/-- A session of a load. -/
structure Tidy (l : Load) (s : Session) : Prop where
  inside : s.Inside l.library l.context
  records : s.Records l.first

/-- A position that a load may read: one that it can come to, or a value that is no schema. -/
structure Stands (l : Load) (p : Position) : Prop where
  places : ∃ path, l.Places p path
  met : p.context.accepts p.value = true → l.Meets p

variable {l : Load} {s s' : Session}

theorem Tidy.frame (h : l.Tidy s) (hf : Session.Frame s s') (hr : s'.Records l.first) :
    l.Tidy s' :=
  ⟨h.inside.frame hf, hr⟩

theorem Tidy.enter (h : l.Tidy s) (uris : List Uri) : l.Tidy (s.enter uris) :=
  ⟨h.inside.enter uris, h.records.enter uris⟩

theorem Tidy.push (h : l.Tidy s) : l.Tidy (s.push l.context) :=
  ⟨h.inside.push _, h.records.alike ⟨rfl, rfl, rfl, rfl⟩⟩

theorem Tidy.beginResolving (h : l.Tidy s) (uri : Uri) : l.Tidy (s.beginResolving uri) :=
  ⟨h.inside.beginResolving uri, h.records.alike ⟨rfl, rfl, rfl, rfl⟩⟩

end Load

namespace Loading

open LoadM Session

variable {l : Load} {other load : NodeLoader} {p : Position} {s s' : Session} {uri : Uri}

/-- Readings that agree in all sessions of a load. -/
structure Parallel (l : Load) (α : Type) (x y : LoadM α) : Prop where
  tidy : ∀ {s a s'}, l.Tidy s → Runs y s (.ok a) s' → l.Tidy s' ∧ Frame s s'
  agrees : ∀ {s}, l.Tidy s → Single l.first s → Agrees l.first x y s

/-- Visits that load nothing make no node. -/
theorem idle_of_visits {nested : Digest.Loader} {draft : Draft} {nodes : List Schema}
    (h : Digest.Visits nested draft (fun _ _ => False) s nodes s') : Idle s s' := by
  induction h with
  | start => exact .refl _
  | issue _ _ _ _ _ _ ih => exact ih.trans (idle_record ..)
  | boolean _ ha _ => exact ha.elim
  | load _ ha _ _ => exact ha.elim

/-- Loaders of nested schemas that agree make readings of keywords that do. -/
theorem parallel_congruence (hl : Framed load) (hk : Recording l.first load) {draft : Draft}
    {asked : Location → Json → Prop}
    (hload : ∀ {location value}, asked location value → ∀ {s}, l.Tidy s → Single l.first s →
      Agrees l.first (other location value 0) (load location value 0) s) :
    Digest.Congruence (Parallel l) (nestedLoad other) (nestedLoad load) draft asked where
  silent := by
    intro α x held lost hg
    constructor
    · intro s a s' ht hr
      obtain ⟨nodes, hv, _⟩ := hg.ok hr
      have hframe := (hl.visits hv).1
      exact ⟨ht.frame hframe (ht.records.alike (idle_of_visits hv).alike), hframe⟩
    · intro s ht hs
      apply agrees_self
      intro a s' hr
      obtain ⟨nodes, hv, _⟩ := hg.ok hr
      exact hs.alike (idle_of_visits hv).alike
  boolean := by
    intro location b _
    constructor
    · intro s a s' ht hr
      obtain ⟨_, rfl⟩ := runs_onStore.mp hr
      have hframe := frame_add s location draft (.boolean b)
      exact ⟨ht.frame hframe (ht.records.add location draft (.boolean b) rfl (by simp)).1, hframe⟩
    · intro s ht hs
      apply agrees_self
      intro a s' hr
      obtain ⟨_, rfl⟩ := runs_onStore.mp hr
      exact hs.add location draft rfl
  load := by
    intro location value ha
    constructor
    · intro s a s' ht hr
      have hframe := hl.frame hr
      exact ⟨ht.frame hframe (hk ht.records hr).1, hframe⟩
    · exact hload ha
  bind := by
    intro α β x y f g hxy hfg
    constructor
    · intro s b s' ht hr
      obtain ⟨a, s₁, hy, hg⟩ := runs_bind_ok.mp hr
      obtain ⟨ht₁, hframe⟩ := hxy.tidy ht hy
      obtain ⟨ht', hframe'⟩ := (hfg s a s₁ hy).tidy ht₁ hg
      exact ⟨ht', hframe.trans hframe'⟩
    · intro s ht hs b s'
      rw [runs_bind_ok, runs_bind_ok]
      constructor
      · rintro ⟨a, s₁, hx, hf⟩
        obtain ⟨hy, hs₁⟩ := (hxy.agrees ht hs a s₁).mp hx
        obtain ⟨hg, hs'⟩ := ((hfg s a s₁ hy).agrees (hxy.tidy ht hy).1 hs₁ b s').mp hf
        exact ⟨⟨a, s₁, hy, hg⟩, hs'⟩
      · rintro ⟨⟨a, s₁, hy, hg⟩, hs'⟩
        obtain ⟨ht₁, _⟩ := hxy.tidy ht hy
        obtain ⟨_, hframe⟩ := (hfg s a s₁ hy).tidy ht₁ hg
        have hs₁ := hs'.back hframe ht₁.records.numbered
        exact ⟨a, s₁, (hxy.agrees ht hs a s₁).mpr ⟨hy, hs₁⟩,
          ((hfg s a s₁ hy).agrees ht₁ hs₁ b s').mpr ⟨hg, hs'⟩⟩

/-- A loader that agrees with another wherever a load may read. -/
def Mirrors (l : Load) (other load : NodeLoader) : Prop :=
  ∀ {p : Position} {hops : Nat} {s : Session}, l.Stands p → l.Tidy s → Single l.first s →
    Agrees l.first (other p.location p.value hops) (load p.location p.value hops) s

/-- Reading an object without identifier. -/
theorem runs_loadObject_of_anonymous {context : OpenDocument} {location : Location}
    {object : List (String × Json)} {N : Schema}
    (ha : Lookup.declaredId? context.active.idKeys (.object object) = none) :
    Runs (loadObject load context location object) s (.ok N) s' ↔ ∃ builder s₂,
      Runs (keywordsRun load context location object)
        (s.enter [location.pointerUri, location.uri]) (.ok builder) s₂ ∧
      N = .node s.store.nodes.size location context.draft builder.body ∧
      s' = s₂.leave N [location.pointerUri, location.uri] := by
  have hid : identifyObject context.active.idKeys location object = pure (location, []) := by
    unfold identifyObject
    rw [ha]
  rw [runs_loadObject, hid]
  constructor
  · rintro ⟨found, s₁, builder, s₂, hp, hread, hN, hs'⟩
    obtain ⟨hfound, rfl⟩ := runs_pure.mp hp
    cases hfound
    exact ⟨builder, s₂, hread, hN, hs'⟩
  · rintro ⟨builder, s₂, hread, hN, hs'⟩
    exact ⟨(location, []), s, builder, s₂, runs_pure.mpr ⟨rfl, rfl⟩, hread, hN, hs'⟩

theorem Stands.met_of_object (hp : l.Stands p) {object : List (String × Json)}
    (hv : p.value = .object object) : l.Meets p :=
  hp.met (by rw [hv]; rfl)

/-- The nested places of an object stand as it does. -/
theorem Stands.nested (hlocal : l.IsLocal) (hp : l.Stands p) {object : List (String × Json)}
    (hm : p.members? = some object) (hv : p.value = .object object) {place : Location × Json}
    (hplace : place ∈ Digest.nested p.context.active p.inner object) :
    l.Stands ⟨p.context, place.1, place.2⟩ := by
  obtain ⟨path, hplaces⟩ := hp.places
  have hmeets := Stands.met_of_object hp hv
  have hlead : l.library.Leads p ⟨p.context, place.1, place.2⟩ := .nested hm hplace
  have hfront := fun written => hlocal.fragment p written hmeets
  obtain ⟨start, hstart, hmet⟩ := hmeets
  exact ⟨hlocal.leads hplaces hfront hlead, fun _ => ⟨start, hstart, hmet.tail hlead⟩⟩

/-- What a reference leads to stands as it does. -/
theorem Stands.followed (hlocal : l.IsLocal) (hp : l.Stands p) {object : List (String × Json)}
    (hv : p.value = .object object) (hu : p.refers? = some uri) {q : Position}
    (hq : l.library.target? p.context uri = some q) : l.Stands q := by
  obtain ⟨path, hplaces⟩ := hp.places
  have hmeets := Stands.met_of_object hp hv
  have hfront := fun written => hlocal.fragment p written hmeets
  obtain ⟨target, _, htarget⟩ := hlocal.target?_at hplaces hfront hu hq
  obtain ⟨start, hstart, hmet⟩ := hmeets
  exact ⟨⟨target, htarget⟩, fun _ => ⟨start, hstart, hmet.tail (.follows hu hq)⟩⟩

/-- What is found for a reference stands as it does. -/
theorem Stands.located (hlocal : l.IsLocal) (hp : l.Stands p) {object : List (String × Json)}
    (hv : p.value = .object object) (hu : p.refers? = some uri) {location : Location}
    {value : Json} (hl : l.context.locate uri = some (location, value)) :
    l.Stands ⟨l.context, location, value⟩ := by
  obtain ⟨path, hplaces⟩ := hp.places
  have hmeets := Stands.met_of_object hp hv
  obtain ⟨hnormalized, hroot⟩ :=
    hlocal.refers_at hplaces (fun written => hlocal.fragment p written hmeets) hu
  obtain ⟨target, _, htarget⟩ := hlocal.locate_at hnormalized hl
  refine ⟨⟨target, htarget⟩, ?_⟩
  intro haccepts
  have hfind : l.library.target? p.context uri = some ⟨l.context, location, value⟩ := by
    rw [hplaces.context, Load.target?_eq hroot, OpenDocument.find?, hl]
    exact if_pos haccepts
  exact (Stands.followed hlocal hp hv hu hfind).met haccepts

theorem Mirrors.object (hm : Mirrors l other load) (hl : Framed load)
    (hk : Recording l.first load) (hlocal : l.IsLocal) (hp : l.Stands p)
    {object : List (String × Json)} (hmembers : p.members? = some object)
    (hv : p.value = .object object) (ht : l.Tidy s) (hs : Single l.first s)
    (hbuilt : Entries.contains p.location.pointerUri s.built = false)
    (hnew : Entries.contains p.location.pointerUri s.inProgress = false) :
    Agrees l.first (loadObject other p.context p.location object)
      (loadObject load p.context p.location object) s := by
  obtain ⟨path, hplaces⟩ := hp.places
  have hinner : p.inner = p.location := (hlocal.inner_eq hplaces).trans hplaces.location.symm
  have hanonymous : Lookup.declaredId? p.context.active.idKeys (.object object) = none := by
    rw [← hv]
    exact Lookup.declaredId?_of_anonymous (hlocal.anonymous_at hplaces)
  have huris : ∀ uri ∈ [p.location.pointerUri, p.location.uri],
      uri = p.location.pointerUri := by
    rw [hlocal.uri_eq hplaces]
    simp
  have hentered := ht.enter [p.location.pointerUri, p.location.uri]
  have hsingle := hs.enter ht.records huris hbuilt hnew
  have hcongruence : Digest.Congruence (Parallel l) (nestedLoad other) (nestedLoad load)
      p.context.draft fun location value =>
        (location, value) ∈ Digest.nested p.context.active p.location object := by
    apply parallel_congruence hl hk
    intro location value ha s ht hs
    rw [← hinner] at ha
    exact hm (Stands.nested hlocal hp hmembers hv ha) ht hs
  have hparallel : Parallel l Builder (keywordsRun other p.context p.location object)
      (keywordsRun load p.context p.location object) :=
    hcongruence.members rfl fun _ hplace => hplace
  have hkeywords := hparallel.agrees hentered hsingle
  -- the keywords agree, and finishing the object changes nothing about places
  intro N s'
  rw [runs_loadObject_of_anonymous hanonymous, runs_loadObject_of_anonymous hanonymous]
  have hleave : ∀ {builder s₂}, Runs (keywordsRun load p.context p.location object)
      (s.enter [p.location.pointerUri, p.location.uri]) (.ok builder) s₂ →
      (Single l.first (s₂.leave
        (.node s.store.nodes.size p.location p.context.draft builder.body)
        [p.location.pointerUri, p.location.uri]) ↔ Single l.first s₂) := by
    intro builder s₂ hread
    have hbody := keywordsRun_body hread
    refine single_leave_iff ht.records.numbered ht.records.size (hl.keywords hread).1 rfl ?_
      huris (mem_enter_of_front List.mem_cons_self hnew)
    simp [Schema.isObject, Schema.body, hbody]
  constructor
  · rintro ⟨builder, s₂, hread, rfl, rfl⟩
    obtain ⟨hread', hs₂⟩ := (hkeywords builder s₂).mp hread
    exact ⟨⟨builder, s₂, hread', rfl, rfl⟩, (hleave hread').mpr hs₂⟩
  · rintro ⟨⟨builder, s₂, hread, rfl, rfl⟩, hs'⟩
    exact ⟨builder, s₂, (hkeywords builder s₂).mpr ⟨hread, (hleave hread).mp hs'⟩, rfl, rfl⟩

/-- A second reading of an object that is being read makes a second node for its place. -/
theorem not_single_of_rereads (hl : Framed load) (ht : l.Tidy s) {hops : Nat}
    (h : s.rereads p.location p.value = true) {found : Option Schema}
    (hr : Runs (loadWith load p.location p.value hops) s (.ok found) s') :
    ¬ Single l.first s' := by
  unfold Session.rereads at h
  have hframe := (framed_loadWith hl).frame hr
  cases nodeRun_of_runs hr with
  | outside hc =>
    rw [ht.inside.current?] at hc
    cases hc
  | known _ hv hb =>
    rw [hv] at h
    simp [Entries.contains, hb] at h
  | reference _ hv _ href =>
    rw [hv] at h
    simp [Entries.contains, href] at h
  | @object context object schema _ hc hv _ href hrun =>
    rw [hv] at h
    simp only [Bool.and_eq_true] at h
    obtain ⟨id, hid⟩ := Option.isSome_iff_exists.mp h.2
    have hmem := Entries.mem_of_get? hid
    have hold := ht.records.numbered _ hmem
    cases hrun with
    | @finished inner declared builder s₁ s₂ hident hread =>
      have hframe₁ := hident.frame.1
      have hframe₂ := (hl.keywords hread).1
      have hbody := keywordsRun_body hread
      intro hsingle
      have hfirst : Occupies l.first s p.location.pointerUri id := .reading hmem
      have hsecond : Occupies l.first (s₂.leave (.node s₁.store.nodes.size inner context.draft
          builder.body) (p.location.pointerUri :: p.location.uri :: declared))
          p.location.pointerUri s₁.store.nodes.size := by
        refine .finished (Nat.le_trans ht.records.size hframe₁.store.size)
          (hframe₂.node?_leave rfl).1 ?_ hident.pointerUri_eq
        simp [Schema.isObject, Schema.body, hbody]
      have heq := hsingle _ _ _ (hfirst.frame hframe ht.records.numbered) hsecond
      have hsize := hframe₁.store.size
      omega
  | boolean _ hv =>
    rw [hv] at h
    cases h
  | refused _ ha =>
    cases hv : p.value with
    | object object =>
      rw [hv] at ha
      cases ha
    | null | bool | number | string | array =>
      rw [hv] at h
      cases h

theorem Mirrors.buildTarget (hm : Mirrors l other load) (hlocal : l.IsLocal) (hp : l.Stands p)
    {object : List (String × Json)} (hv : p.value = .object object) (hu : p.refers? = some uri)
    {hops : Nat} (ht : l.Tidy s) (hs : Single l.first s) :
    Agrees l.first (buildTarget other l.context uri hops)
      (buildTarget load l.context uri hops) s := by
  have hlocate : Lookup.locate l.context.active.idKeys (Location.ofDocument l.context.uri)
      l.context.document uri = l.context.locate uri := rfl
  unfold Loading.buildTarget
  dsimp only
  rw [hlocate]
  cases hl : l.context.locate uri with
  | none =>
    apply agrees_self
    intro a s' hr
    obtain ⟨_, rfl⟩ := runs_pure.mp hr
    exact hs
  | some place =>
    have hsingle : Single l.first (s.push l.context) := hs.alike ⟨rfl, rfl, rfl, rfl⟩
    exact (hm (Stands.located hlocal hp hv hu hl) ht.push hsingle).between
      fun _ => single_congr rfl rfl

theorem Mirrors.chase (hm : Mirrors l other load) (hlocal : l.IsLocal) (hp : l.Stands p)
    {object : List (String × Json)} (hv : p.value = .object object) (hu : p.refers? = some uri)
    {origin : Location} {hops : Nat} (ht : l.Tidy s) (hs : Single l.first s) :
    Agrees l.first (chase other origin uri hops) (chase load origin uri hops) s := by
  obtain ⟨path, hplaces⟩ := hp.places
  have hroot : uri.withoutFragment = l.documentUri := (hlocal.refers_at hplaces
    (fun written => hlocal.fragment p written (Stands.met_of_object hp hv)) hu).2
  have hnearby : s.nearby = [l.context] := by
    rw [ht.inside.nearby, Library.nearby]
    exact if_pos rfl
  have hnear : [l.context].any (fun document => decide (document.uri = uri.withoutFragment)) =
      true := by
    rw [hroot]
    simp [Load.context, Policy.openAs]
  unfold Loading.chase
  apply agrees_get_bind
  simp only [hnearby, hnear, if_true]
  apply Agrees.bind_same
  · unfold buildInFirst buildInFirst
    apply (hm.buildTarget hlocal hp hv hu ht hs).bind_same
    rintro (_ | schema) s₁ b s' hr
    · obtain ⟨_, rfl⟩ := runs_pure.mp hr
      rfl
    · obtain ⟨_, rfl⟩ := runs_pure.mp hr
      rfl
  · rintro (_ | schema) s₁ b s' hr
    · cases (runs_fatal.mp hr).1
    · obtain ⟨_, rfl⟩ := runs_pure.mp hr
      rfl

theorem Mirrors.resolve (hm : Mirrors l other load) (hlocal : l.IsLocal) (hp : l.Stands p)
    {object : List (String × Json)} (hv : p.value = .object object) (hu : p.refers? = some uri)
    {written : String} {hops : Nat} (ht : l.Tidy s) (hs : Single l.first s) :
    Agrees l.first (resolve other p.location written uri hops)
      (resolve load p.location written uri hops) s := by
  have hself : ∀ r : Reference, Agrees l.first (pure r : LoadM Reference) (pure r) s := by
    intro r
    apply agrees_self
    intro a s' hr
    obtain ⟨_, rfl⟩ := runs_pure.mp hr
    exact hs
  have hfatal : ∀ (kind : IssueKind) (message : String),
      Agrees l.first (fatal kind p.location message : LoadM Reference)
        (fatal kind p.location message) s := by
    intro kind message
    have hnone : ∀ (r : Reference) s',
        ¬ Runs (fatal kind p.location message : LoadM Reference) s (.ok r) s' :=
      fun r s' hr => by cases (runs_fatal.mp hr).1
    exact agrees_of_error hnone hnone
  unfold Loading.resolve
  apply agrees_get_bind
  cases hb : (Entries.get? uri s.built).or (s.cache.get? uri) with
  | some target => exact hself _
  | none =>
    cases hi : Entries.get? uri s.inProgress with
    | some id => exact hself _
    | none =>
      dsimp only
      split
      · exact hfatal _ _
      · split
        · exact hfatal _ _
        · have hsingle : Single l.first (s.beginResolving uri) := hs.alike ⟨rfl, rfl, rfl, rfl⟩
          have hchase : Agrees l.first
              (between (beginResolving uri) (endResolving uri)
                (Loading.chase other p.location uri hops))
              (between (beginResolving uri) (endResolving uri)
                (Loading.chase load p.location uri hops)) s :=
            (hm.chase hlocal hp hv hu (ht.beginResolving uri) hsingle).between fun _ => single_congr rfl rfl
          apply hchase.bind_same
          intro target s₁ r s' hr
          rw [runs_modify_bind] at hr
          obtain ⟨_, rfl⟩ := runs_pure.mp hr
          exact single_congr rfl rfl

theorem Mirrors.reference (hm : Mirrors l other load) (hlocal : l.IsLocal) (hp : l.Stands p)
    {object : List (String × Json)} (hv : p.value = .object object) {written : String}
    (hw : p.written? = some written) {draft : Draft} {hops : Nat} (ht : l.Tidy s)
    (hs : Single l.first s) :
    Agrees l.first (loadReference other draft p.location written hops)
      (loadReference load draft p.location written hops) s := by
  unfold loadReference
  cases hresolve : p.location.resolve written with
  | error fault =>
    apply agrees_of_error
    · exact fun t s' hr => by cases (runs_fatal.mp hr).1
    · exact fun t s' hr => by cases (runs_fatal.mp hr).1
  | ok uri =>
    have hu : p.refers? = some uri := by
      rw [Position.refers?, hw, Option.bind_some, hresolve]
      rfl
    apply (hm.resolve hlocal hp hv hu ht hs).bind_same
    intro r s₁ t s' hr
    obtain ⟨_, rfl⟩ := runs_onStore.mp hr
    constructor
    · intro h
      refine h.step rfl ?_
      intro id t hnode _
      exact (Store.grows_add s₁.store p.location draft (.reference r)).node?_some hnode
    · exact fun h => h.add p.location draft rfl

/-- Reading a node that is not being read. -/
theorem Mirrors.loadWith (hm : Mirrors l other load) (hl : Framed load)
    (hk : Recording l.first load) (hlocal : l.IsLocal) (hp : l.Stands p) {hops : Nat}
    (ht : l.Tidy s) (hs : Single l.first s)
    (hfresh : s.rereads p.location p.value = false) :
    Agrees l.first (loadWith other p.location p.value hops)
      (loadWith load p.location p.value hops) s := by
  obtain ⟨path, hplaces⟩ := hp.places
  have hcurrent : s.current? = some p.context := by
    rw [ht.inside.current?, hplaces.context]
  have hreturn : ∀ {x y : LoadM Schema}, Agrees l.first x y s →
      Agrees l.first (do return some (← x)) (do return some (← y)) s := by
    intro x y h
    apply h.bind_same
    intro t s₁ b s' hr
    obtain ⟨_, rfl⟩ := runs_pure.mp hr
    rfl
  unfold Loading.loadWith
  apply agrees_get_bind
  simp only [hcurrent]
  cases hv : p.value with
  | object object =>
    dsimp only
    apply agrees_get_bind
    cases hb : Entries.get? p.location.pointerUri s.built with
    | some schema =>
      apply agrees_self
      intro a s' hr
      obtain ⟨_, rfl⟩ := runs_pure.mp hr
      exact hs
    | none =>
      cases href : Entries.get? "$ref" object with
      | none =>
        have hmembers : p.members? = some object := by
          simp [Position.members?, hv, Entries.contains, href]
        have hbuilt : Entries.contains p.location.pointerUri s.built = false := by
          simp [Entries.contains, hb]
        have hnew : Entries.contains p.location.pointerUri s.inProgress = false := by
          simpa [Session.rereads, hv, Entries.contains, hb, href] using hfresh
        exact hreturn (hm.object hl hk hlocal hp hmembers hv ht hs hbuilt hnew)
      | some reference =>
        cases reference with
        | string written =>
          have hw : p.written? = some written := by
            simp [Position.written?, hv, Json.member?, href, Json.string?]
          exact hreturn (hm.reference hlocal hp hv hw ht hs)
        | null | bool | number | array | object =>
          apply agrees_of_error
          · exact fun a s' hr => by cases (runs_fatal.mp hr).1
          · exact fun a s' hr => by cases (runs_fatal.mp hr).1
  | bool b =>
    apply agrees_self
    intro a s' hr
    dsimp only at hr
    split at hr
    · obtain ⟨t, s₁, ha, hr⟩ := runs_bind_ok.mp hr
      obtain ⟨_, rfl⟩ := runs_onStore.mp ha
      obtain ⟨_, rfl⟩ := runs_pure.mp hr
      exact hs.add p.location p.context.draft rfl
    · obtain ⟨_, s₁, ha, hr⟩ := runs_bind_ok.mp hr
      obtain ⟨_, rfl⟩ := runs_malformed.mp ha
      obtain ⟨_, rfl⟩ := runs_pure.mp hr
      exact hs.alike (idle_record ..).alike
  | null | number | string | array =>
    apply agrees_self
    intro a s' hr
    obtain ⟨_, s₁, ha, hr⟩ := runs_bind_ok.mp hr
    obtain ⟨_, rfl⟩ := runs_malformed.mp ha
    obtain ⟨_, rfl⟩ := runs_pure.mp hr
    exact hs.alike (idle_record ..).alike

/-- The load that stops at a second reading succeeds if and only if the load does and no
place has two objects. -/
theorem mirrors_loadOnce (hlocal : l.IsLocal) (steps : Nat) :
    Mirrors l (loadOnce steps) (loadNode steps) := by
  induction steps with
  | zero =>
    intro p hops s _ _ _
    apply agrees_of_error
    · exact fun a s' hr => by cases (runs_throw.mp hr).1
    · exact fun a s' hr => by cases (runs_throw.mp hr).1
  | succ steps ih =>
    intro p hops s hp ht hs a s'
    have hl := framed_loadNode steps
    unfold loadOnce
    rw [runs_get_bind]
    cases hr : s.rereads p.location p.value with
    | true =>
      simp only [if_true, runs_throw]
      constructor
      · rintro ⟨h, _⟩
        cases h
      · rintro ⟨h, hsingle⟩
        exact absurd hsingle (not_single_of_rereads hl ht hr h)
    | false =>
      simp only [Bool.false_eq_true, if_false]
      exact ih.loadWith hl (recording_loadNode _ steps) hlocal hp ht hs hr a s'

end Loading
end SchemaAtlas
