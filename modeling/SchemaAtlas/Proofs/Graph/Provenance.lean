import SchemaAtlas.Proofs.Graph.Placed
import SchemaAtlas.Proofs.Graph.Resolved
import SchemaAtlas.Proofs.Graph.Sharing
import SchemaAtlas.Proofs.Loading.Ledger
import SchemaAtlas.Proofs.Loading.Strictness

/-!
# Where nodes come from

A load makes a node with keywords in one way only: it reads an object at a position that it has
come to. What such a reading gives to its node is therefore true of all nodes of a load; this
holds for every loader that reads like `loadNode`, and `Load.Placed.traced` says it for one that
answers with nodes of the place that it was called for. What nodes lead to has two origins: the
load itself, and what the schemas of the cache led to before it (`Request.reaches_cases`).
-/

namespace SchemaAtlas

namespace Session

/-- A target that is a node from a number on, or what a schema of a cache stands for. -/
inductive Aims (first : Nat) (cache : Cache) : Target → Prop
  | made {id : Nat} : first ≤ id → Aims first cache (.node id)
  | cached {uri : Uri} {c : Schema} : cache.get? uri = some c → Aims first cache (.node c.id)
  | beyond {uri : Uri} {c : Schema} {r : Reference} : cache.get? uri = some c →
      c.reference? = some r → Aims first cache r.target

variable {P : Position → Schema → Prop} {lib : Library} {start : Position} {first : Nat}
variable {s s' : Session} {id : Nat} {t : Schema}

/-- What is true of the node stored under a number: if it has keywords, it is related to a
position that was met, and it leads to nodes of the same load or to what the cache has. -/
structure Traces (P : Position → Schema → Prop) (lib : Library) (start : Position) (first : Nat)
    (s : Session) (id : Nat) (t : Schema) : Prop where
  id : t.id = id
  origin : t.isObject = true → ∃ p, lib.Meets start p ∧ P p t
  children : ∀ entry ∈ t.children, s.Made first entry.2.2
  target : ∀ r, t.reference? = some r → Aims first s.cache r.target

/-- A session whose nodes from a number on are traced. -/
structure Traced (P : Position → Schema → Prop) (lib : Library) (start : Position) (first : Nat)
    (s : Session) : Prop where
  kept : Ledger.silent.Kept first s
  inProgress : ∀ entry ∈ s.inProgress, first ≤ entry.2
  nodes : ∀ {id t}, first ≤ id → s.store.node? id = some t → s.Traces P lib start first id t

theorem Traces.keep (h : s.Traces P lib start first id t)
    (hn : ∀ {id t}, s.store.node? id = some t → s'.store.node? id = some t)
    (hc : s'.cache = s.cache) : s'.Traces P lib start first id t where
  id := h.id
  origin := h.origin
  children := fun entry he => ⟨(h.children entry he).first, hn (h.children entry he).stored⟩
  target := hc ▸ h.target

theorem Traced.alike (h : s.Traced P lib start first) (ha : Alike s s') :
    s'.Traced P lib start first where
  kept := h.kept.alike ha
  inProgress := ha.inProgress ▸ h.inProgress
  nodes := by
    intro id t hid ht
    have hold : s.store.node? id = some t := ha.store ▸ ht
    exact (h.nodes hid hold).keep (ha.store ▸ fun hn => hn) ha.cache

/-- Making a node without keywords. -/
theorem Traced.add (h : s.Traced P lib start first) (location : Location) (draft : Draft)
    (body : Body Schema) (hb : (s.store.add location draft body).1.isObject = false)
    (hr : ∀ r, body = .reference r → Aims first s.cache r.target) :
    Session.Traced P lib start first
        { s with store := (s.store.add location draft body).2 } ∧
      Session.Made first { s with store := (s.store.add location draft body).2 }
        (s.store.add location draft body).1 := by
  obtain ⟨hkept, hmade⟩ := h.kept.add location draft body
  refine ⟨⟨hkept, h.inProgress, ?_⟩, hmade⟩
  intro id t hid ht
  rcases Store.node?_add_cases ht with hold | ⟨rfl, hnumber⟩
  · exact (h.nodes hid hold).keep (Store.grows_add _ _ _ _).node?_some rfl
  · refine ⟨hnumber, ?_, ?_, ?_⟩
    · intro hobject
      rw [hb] at hobject
      cases hobject
    · rw [Schema.children_of_isObject hb]
      exact fun entry he => (nomatch he)
    · intro r href
      cases body with
      | object => cases href
      | boolean => cases href
      | reference r' =>
        cases href
        exact hr r rfl

theorem Traced.enter (h : s.Traced P lib start first) (uris : List Uri) :
    (s.enter uris).Traced P lib start first where
  kept := h.kept.enter uris
  inProgress := by
    intro entry he
    rcases Account.mem_enter he with ⟨_, hid⟩ | he
    · rw [hid]
      exact h.kept.size
    · exact h.inProgress entry he
  nodes := by
    intro id t hid ht
    have hold : s.store.node? id = some t := (Store.node?_reserve _ _).symm.trans ht
    exact (h.nodes hid hold).keep (Store.grows_reserve _).node?_some rfl

/-- Finishing a node under URIs, as one that the load made. -/
theorem Traced.finish (h : s.Traced P lib start first) (ht : s.Made first t) (uris : List Uri) :
    (s.finish t uris).Traced P lib start first where
  kept := h.kept.finish ht fun _ _ => trivial
  inProgress := h.inProgress
  nodes := fun hid ht' => (h.nodes hid ht').keep (fun hn => hn) rfl

/-- Finishing the node whose keywords have been read. -/
theorem Traced.leave (h : s.Traced P lib start first) {uris : List Uri}
    (hf : (s.enter uris).Frame s') (hs' : s'.Traced P lib start first) {N : Schema}
    (hid : N.id = s.store.nodes.size) (hr : N.reference? = none)
    (hc : ∀ entry ∈ N.children, s'.Made first entry.2.2) {p : Position}
    (hp : lib.Meets start p) (hN : P p N) :
    (s'.leave N uris).Traced P lib start first ∧ (s'.leave N uris).Made first N := by
  have hframe : s.Frame (s'.leave N uris) := hf.leave hid
  obtain ⟨hstored, hkeep⟩ := hf.node?_leave hid
  obtain ⟨hkept, hmade⟩ := h.kept.leave hf hs'.kept hid fun _ _ => trivial
  refine ⟨⟨hkept, ?_, ?_⟩, hmade⟩
  · rw [hframe.inProgress h.kept.numbered]
    exact h.inProgress
  · intro id t hfirst ht
    by_cases heq : id = N.id
    · subst heq
      cases Option.some.inj (hstored.symm.trans ht)
      refine ⟨rfl, fun _ => ⟨p, hp, hN⟩, ?_, ?_⟩
      · exact fun entry he => ⟨(hc entry he).first, hkeep (hc entry he).stored⟩
      · intro r href
        rw [hr] at href
        cases href
    · have hold : s'.store.node? id = some t := (Store.node?_complete_of_ne _ heq).symm.trans ht
      exact (hs'.nodes hfirst hold).keep hkeep (hframe.cache.trans hf.cache.symm)

end Session

namespace Loading

open LoadM Session

/-- What the reading of an object at a position that was met gives is related to the position. -/
def Relates (P : Position → Schema → Prop) (lib : Library) (start : Position)
    (load : NodeLoader) : Prop :=
  ∀ {p : Position} {object : List (String × Json)} {s s' : Session} {N : Schema},
    lib.Meets start p → p.members? = some object → s.Inside lib p.context →
    ObjectRun load p.context p.location object s (.ok N) s' → P p N

/-- A loader that keeps sessions traced, and gives nodes of the load. -/
def Tracing (P : Position → Schema → Prop) (lib : Library) (start : Position) (first : Nat)
    (load : NodeLoader) : Prop :=
  ∀ {p : Position} {hops : Nat} {s s' : Session} {found : Option Schema}, lib.Meets start p →
    s.Inside lib p.context → s.Traced P lib start first →
    Runs (load p.location p.value hops) s (.ok found) s' →
    s'.Traced P lib start first ∧ ∀ t ∈ found, s'.Made first t

variable {P : Position → Schema → Prop} {lib : Library} {start p : Position} {first : Nat}
variable {load : NodeLoader} {s s' : Session} {uri : Uri} {hops : Nat}

theorem Tracing.visits (hk : Tracing P lib start first load) (hl : Framed load)
    {asked : Location → Json → Prop} {nodes : List Schema} {context : OpenDocument}
    (ha : ∀ location value, asked location value → lib.Meets start ⟨context, location, value⟩)
    (hin : s.Inside lib context) (h : s.Traced P lib start first)
    (hv : Digest.Visits (nestedLoad load) context.draft asked s nodes s') :
    s'.Traced P lib start first ∧ ∀ t ∈ nodes, s'.Made first t := by
  induction hv with
  | start => exact ⟨h, by simp⟩
  | issue severity kind location message _ _ ih =>
    exact ⟨ih.1.alike (idle_record ..).alike, fun t ht => (ih.2 t ht).grows (.refl _)⟩
  | @boolean s₁ nodes location b _ _ ih =>
    obtain ⟨hs₂, hnew⟩ := ih.1.add location context.draft (.boolean b) rfl (by simp)
    refine ⟨hs₂, ?_⟩
    intro t ht
    rcases List.mem_append.mp ht with ht | ht
    · exact (ih.2 t ht).grows (Store.grows_add _ _ _ _)
    · rw [List.mem_singleton.mp ht]
      exact hnew
  | @load s₁ s₂ nodes location value found hvisits hasked hr ih =>
    have hmeets : lib.Meets start ⟨context, location, value⟩ := ha _ _ hasked
    obtain ⟨hs₂, hfound⟩ := hk hmeets (hin.frame (hl.visits hvisits).1) ih.1 hr
    refine ⟨hs₂, ?_⟩
    intro t ht
    rcases List.mem_append.mp ht with ht | ht
    · exact (ih.2 t ht).grows (hl.frame hr).store
    · exact hfound t (Option.mem_toList.mp ht)

theorem Tracing.object (hk : Tracing P lib start first load) (hl : Framed load)
    (hP : Relates P lib start load) (hp : lib.Meets start p) {object : List (String × Json)}
    (hm : p.members? = some object) (hin : s.Inside lib p.context)
    (h : s.Traced P lib start first) {N : Schema}
    (hr : ObjectRun load p.context p.location object s (.ok N) s') :
    s'.Traced P lib start first ∧ s'.Made first N := by
  have hN : P p N := hP hp hm hin hr
  cases hr with
  | @finished inner declared builder s₁ s₂ hid hread =>
    have hmeets : ∀ location value,
        (location, value) ∈ Digest.nested p.context.active inner object →
        lib.Meets start ⟨p.context, location, value⟩ := by
      intro location value ha
      rw [hid.inner_eq (Position.value_of_members? hm)] at ha
      exact hp.tail (.nested hm ha)
    obtain ⟨nodes, hvisits, hheld, -⟩ := (keywordsRun_gathers load p.context inner object).ok hread
    have hs₁ := h.alike hid.idle.alike
    obtain ⟨hs₂, hmade⟩ := hk.visits hl hmeets (hid.inside hin _) (hs₁.enter _) hvisits
    have hbody := keywordsRun_body hread
    refine hs₁.leave (hl.visits hvisits).1 hs₂ rfl ?_ ?_ hp hN
    · simp [Schema.reference?, Schema.body, hbody]
    · intro entry he
      have hchild := (Schema.mem_children (s := .node s₁.store.nodes.size inner
        p.context.draft builder.body) hbody).mp ⟨entry.1, entry.2.1, he⟩
      exact hmade _ (hheld hchild)

/-- A reference to a node that the load made aims at one that it makes, or beyond it. -/
theorem aims_referenceTo (h : s.Traced P lib start first) {target : Schema}
    (ht : s.Made first target) (written : String) (uri : Uri) :
    Aims first s.cache (referenceTo written uri target).target := by
  unfold referenceTo
  cases hr : target.reference? with
  | none => exact .made ht.first
  | some inner => exact (h.nodes ht.first ht.stored).target inner hr

theorem Tracing.resolve (hk : Tracing P lib start first load) (hl : Framed load)
    (hp : lib.Meets start p) (hrefers : p.refers? = some uri) (hin : s.Inside lib p.context)
    (h : s.Traced P lib start first) {written : String} {reference : Reference}
    (hr : ResolveRun load p.location written uri hops s (.ok reference) s') :
    s'.Traced P lib start first ∧ Aims first s'.cache reference.target := by
  cases hr with
  | @known target hb =>
    refine ⟨h, ?_⟩
    rcases Option.or_eq_some_iff.mp hb with hb | ⟨-, hc⟩
    · exact aims_referenceTo h (h.kept.built _ (Entries.mem_of_get? hb)).1 _ _
    · unfold referenceTo
      cases hinner : target.reference? with
      | none => exact .cached hc
      | some inner => exact .beyond (r := inner) hc hinner
  | reading _ hread => exact ⟨h, .made (h.inProgress _ (Entries.mem_of_get? hread))⟩
  | @chased target s₂ _ _ hc =>
    cases hc with
    | @reached _ _ _ document _ _ _ _ s₃ s₄ hs₀ hcand hs hlocate hr =>
      have hin₀ := hin.beginResolving uri
      have htarget := hl.target?_eq hin₀ hs₀ hcand hs hlocate hr (by simp) (by simp)
      have hbegun : (s.beginResolving uri).Traced P lib start first :=
        h.alike ⟨rfl, rfl, rfl, rfl⟩
      have hs₃ : (s₃.push document).Traced P lib start first :=
        (hbegun.alike (hl.searches_vain hs).1.alike).alike ⟨rfl, rfl, rfl, rfl⟩
      obtain ⟨hs₄, hgiven⟩ := hk (hp.tail (.follows hrefers htarget))
        ((hin₀.frame (hl.searches hs).1).push document) hs₃ hr
      have hended : (s₄.pop.endResolving uri).Traced P lib start first :=
        hs₄.alike ⟨rfl, rfl, rfl, rfl⟩
      have hmade : (s₄.pop.endResolving uri).Made first target :=
        (hgiven target rfl).grows (.refl _)
      exact ⟨hended.finish hmade [uri], aims_referenceTo hended hmade _ _⟩

theorem tracing_loadWith (hk : Tracing P lib start first load) (hl : Framed load)
    (hP : Relates P lib start load) : Tracing P lib start first (loadWith load) := by
  intro p hops s s' found hp hin h hload
  have hsome : ∀ {N : Schema}, s'.Traced P lib start first ∧ s'.Made first N →
      s'.Traced P lib start first ∧ ∀ t ∈ some N, s'.Made first t := by
    rintro N ⟨hs', hmade⟩
    refine ⟨hs', ?_⟩
    rintro t ⟨⟩
    exact hmade
  have hcurrent : ∀ {context : OpenDocument}, s.current? = some context → p.context = context :=
    fun hc => Option.some.inj (hin.current?.symm.trans hc)
  cases nodeRun_of_runs hload with
  | outside => exact ⟨h, by simp⟩
  | known _ _ hb => exact hsome ⟨h, (h.kept.built _ (Entries.mem_of_get? hb)).1⟩
  | @reference _ object written schema _ _ hv _ href hr =>
    have hw : p.written? = some written := by
      simp [Position.written?, hv, Json.member?, href, Json.string?]
    cases hr with
    | @refers uri reference s₁ hu hresolve =>
      have hrefers : p.refers? = some uri := by simp [Position.refers?, hw, hu, Except.toOption]
      obtain ⟨hs₁, haims⟩ := hk.resolve hl hp hrefers hin h hresolve
      refine hsome (hs₁.add _ _ _ rfl ?_)
      rintro _ ⟨⟩
      exact haims
  | @object _ object _ _ hc hv _ href hr =>
    rw [← hcurrent hc] at hr
    exact hsome (hk.object hl hP hp (p.members?_of_object hv href) hin h hr)
  | boolean => exact hsome (h.add _ _ _ rfl (by simp))
  | refused => exact ⟨h.alike (idle_record ..).alike, by simp⟩

theorem tracing_loadNode (hP : ∀ {load}, Framed load → Relates P lib start load)
    (first steps : Nat) : Tracing P lib start first (loadNode steps) := by
  induction steps with
  | zero =>
    intro p hops s s' found _ _ _ hr
    cases (runs_throw.mp hr).1
  | succ steps ih => exact tracing_loadWith ih (framed_loadNode steps) (hP (framed_loadNode steps))

theorem tracing_loadPlaced (hP : ∀ {load}, Placing load → Relates P lib start load)
    (first steps : Nat) : Tracing P lib start first (loadPlaced steps) := by
  induction steps with
  | zero =>
    intro p hops s s' found _ _ _ hr
    cases (runs_throw.mp hr).1
  | succ steps ih =>
    have hl := placing_loadPlaced steps
    intro p hops s s' found hp hin h hr
    exact tracing_loadWith ih hl.toFramed (hP hl) hp hin h (runs_loadPlaced_ok hr).1

end Loading

/-! ## Loads -/

namespace Load

open Loading LoadM Session

variable {l : Load} {P : Position → Schema → Prop} {schema t : Schema} {report : Report}

/-- When a load begins, it has made no node. -/
theorem traced_session (l : Load) (start : Position) :
    l.session.Traced P l.library start l.first where
  kept := l.kept_session _
  inProgress := by
    rw [l.session_eq]
    exact fun entry he => nomatch he
  nodes := by
    intro id t hid ht
    rw [l.session_eq] at ht
    change l.workspace.store.node? id = some t at ht
    rw [Store.node?_of_size_le hid] at ht
    cases ht

/-- A load that answers calls with nodes of their own places reads what `loadPlaced` reads. -/
theorem Placed.run_ok (hplaced : l.Placed) (h : l.run.1 = .ok (schema, report)) :
    ∃ start s, l.context.locate l.uri = some start ∧
      Runs (loadPlaced l.workspace.stepLimit start.1 start.2 0) l.session (.ok (some schema)) s ∧
      l.run.2.store = s.store := by
  have hrun : l.runBy loadPlaced = l.run := hplaced
  obtain ⟨start, _, hlocate, -⟩ := Load.run_ok h
  simp only [runBy, hlocate] at hrun
  rcases hr : (ExceptT.run (loadPlaced l.workspace.stepLimit start.1 start.2 0)).run l.session
    with ⟨outcome, s⟩
  rw [hr] at hrun
  obtain ⟨rfl, -, -, hstore⟩ := of_conclude (hrun.trans (Prod.ext h rfl))
  exact ⟨start, s, hlocate, hr, hstore⟩

/-- What readings of objects give to their nodes, all nodes have that the load makes. -/
theorem Placed.traced (hplaced : l.Placed) (h : l.run.1 = .ok (schema, report))
    (hP : ∀ {start load}, Placing load → Relates P l.library start load) (hfirst : l.first ≤ t.id)
    (hstored : l.run.2.store.node? t.id = some t) (ht : t.isObject = true) :
    ∃ p, l.Meets p ∧ P p t := by
  obtain ⟨start, s, hlocate, hread, hstore⟩ := hplaced.run_ok h
  have hstart : l.start? = some ⟨l.context, start.1, start.2⟩ := by
    rw [Load.start?, hlocate]
    rfl
  have htraced : s.Traced P l.library ⟨l.context, start.1, start.2⟩ l.first :=
    (tracing_loadPlaced hP _ _ .refl l.inside (l.traced_session _) hread).1
  rw [hstore] at hstored
  obtain ⟨p, hp, hpt⟩ := (htraced.nodes hfirst hstored).origin ht
  exact ⟨p, ⟨_, hstart, hp⟩, hpt⟩

end Load

/-- A schema of the cache leads to the node. -/
def Workspace.Recalls (w : Workspace) (t : Schema) : Prop :=
  ∃ uri c, w.cache.get? uri = some c ∧ w.store.Reaches c t

/-- What a complete node leads to stays so when the store grows. -/
theorem Store.Complete.reaches_tail {st st' : Store} {c a b : Schema} (h : st.Complete c)
    (hg : st.Grows st') (ha : st.Reaches c a) (he : st'.Edge a b) : st.Reaches c b := by
  refine ha.tail ?_
  cases he with
  | child hm => exact .child hm
  | target hr hf =>
    rw [(h.sound a ha _ hr).follow_grows hg (by simp)] at hf
    exact .target hr hf

namespace Load

open Loading Session

variable {l : Load} {schema t : Schema} {report : Report} {s : Session}

/-- What a target leads to, the load has made or the cache has recalled. -/
theorem cases_of_aims {target : Target} {start : Position} {P : Position → Schema → Prop}
    (hcache : ∀ uri c, l.workspace.cache.get? uri = some c → l.workspace.store.Complete c)
    (hs : s.Traced P l.library start l.first) (hg : l.workspace.store.Grows s.store)
    (ha : Aims l.first l.workspace.cache target)
    (hf : (Store.follow target s.store).1 = some t) :
    s.Made l.first t ∨ l.workspace.Recalls t := by
  cases ha with
  | made hfirst =>
    have hid : t.id = _ := (hs.nodes hfirst hf).id
    exact Or.inl ⟨by rw [hid]; exact hfirst, by rw [hid]; exact hf⟩
  | @cached uri c hc =>
    have hstored := hg.node?_some (hcache uri c hc).stored
    cases Option.some.inj (hstored.symm.trans hf)
    exact Or.inr ⟨uri, t, hc, .refl⟩
  | @beyond uri c _ hc hr =>
    exact Or.inr ⟨uri, c, hc, (hcache uri c hc).reaches_tail hg .refl (.target hr hf)⟩

/-- When a load ends with a schema, its nodes are traced, and the schema is one of them. -/
theorem traced_of_run {P : Position → Schema → Prop}
    (hP : ∀ {start load}, Framed load → Relates P l.library start load)
    (h : l.run.1 = .ok (schema, report)) :
    ∃ (start : Position) (s : Session), s.Traced P l.library start l.first ∧
      s.Made l.first schema ∧ s.cache = l.workspace.cache ∧
        l.workspace.store.Grows s.store ∧ l.run.2.store = s.store := by
  obtain ⟨start, s, -, hread, -, -, heq⟩ := Load.run_ok h
  have htracing : Tracing P l.library ⟨l.context, start.1, start.2⟩ l.first
      (loadNode l.workspace.stepLimit) := tracing_loadNode hP _ _
  obtain ⟨hs, hmade⟩ := htracing .refl l.inside (l.traced_session _) hread
  have hframe := (framed_loadNode l.workspace.stepLimit).frame hread
  have hg : l.workspace.store.Grows s.store := by
    have hstore := hframe.store
    rwa [l.session_eq] at hstore
  have hsame : s.cache = l.workspace.cache := by
    rw [hframe.cache, l.session_eq]
    rfl
  exact ⟨_, s, hs, hmade schema rfl, hsame, hg, congrArg Workspace.store heq⟩

/-- All nodes that a node of a load leads to were made by the load or recalled by the cache. -/
theorem reaches_cases_of_finishes
    (hcache : ∀ uri c, l.workspace.cache.get? uri = some c → l.workspace.store.Complete c)
    (h : l.run.1 = .ok (schema, report)) {node : Schema}
    (hnode : l.workspace.Finishes l.run.2 node) (ht : l.run.2.store.Reaches node t) :
    l.workspace.Finishes l.run.2 t ∨ l.workspace.Recalls t := by
  obtain ⟨_, s, hs, -, hsame, hg, hstore⟩ :=
    traced_of_run (P := fun _ _ => True) (fun _ => fun _ _ _ _ => trivial) h
  obtain ⟨hfirst, hstored⟩ := hnode
  rw [hstore] at hstored ht
  suffices s.Made l.first t ∨ l.workspace.Recalls t from
    this.imp_left fun hmade => ⟨hmade.first, hstore ▸ hmade.stored⟩
  induction ht with
  | refl => exact Or.inl ⟨hfirst, hstored⟩
  | @tail a b _ he ih =>
    rcases ih with ha | ⟨uri, c, hc, ha⟩
    · have htraces := hs.nodes ha.first ha.stored
      cases he with
      | child hm => exact Or.inl (htraces.children _ hm)
      | target hr hf => exact cases_of_aims hcache hs hg (hsame ▸ htraces.target _ hr) hf
    · exact Or.inr ⟨uri, c, hc, (hcache uri c hc).reaches_tail hg ha he⟩

/-- The schema that a load gives is a node that it made. -/
theorem finishes_of_run (h : l.run.1 = .ok (schema, report)) :
    l.workspace.Finishes l.run.2 schema := by
  obtain ⟨_, s, -, hmade, -, -, hstore⟩ :=
    traced_of_run (P := fun _ _ => True) (fun _ => fun _ _ _ _ => trivial) h
  exact ⟨hmade.first, hstore ▸ hmade.stored⟩

/-- All nodes that a loaded schema leads to were made by the load or recalled by the cache. -/
theorem reaches_cases
    (hcache : ∀ uri c, l.workspace.cache.get? uri = some c → l.workspace.store.Complete c)
    (h : l.run.1 = .ok (schema, report)) (ht : l.run.2.store.Reaches schema t) :
    l.workspace.Finishes l.run.2 t ∨ l.workspace.Recalls t :=
  reaches_cases_of_finishes hcache h (finishes_of_run h) ht

end Load

/-- After any requests, all nodes that a loaded schema leads to were made by its load or recalled
by the cache. -/
theorem Request.reaches_cases {request : Request} {policy : Policy} {w w' : Workspace}
    {given : Schema → Prop} {l : Load} {s t : Schema} (hl : request.load? policy w = some l)
    (hrun : request.run policy w = (.ok s, w')) (hw : Gave w.store given)
    (hcache : ∀ uri c, w.cache.get? uri = some c → given c) (ht : w'.store.Reaches s t) :
    w.Finishes w' t ∨ w.Recalls t := by
  obtain ⟨report, hok, rfl⟩ := run_ok_of_load? hl hrun
  obtain ⟨-, hsame, hstore⟩ := load?_workspace hl
  have hcomplete : ∀ uri c, l.workspace.cache.get? uri = some c →
      l.workspace.store.Complete c := by
    rw [hsame, hstore]
    exact fun uri c hc => hw.complete c (hcache uri c hc)
  rcases Load.reaches_cases hcomplete hok ht with ⟨hfirst, hstored⟩ | ⟨uri, c, hc, hreaches⟩
  · exact Or.inl ⟨hstore ▸ hfirst, hstored⟩
  · exact Or.inr ⟨uri, c, hsame ▸ hc, hstore ▸ hreaches⟩

end SchemaAtlas
