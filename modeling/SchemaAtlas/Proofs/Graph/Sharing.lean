import SchemaAtlas.Proofs.Graph.Single

/-!
# Shared objects

The objects that a schema reaches are shared: one that is contained in it and referred to is
one node. A load shares its objects if it comes to none of them a second time while it is
being read, and a load without issues only then. For the latter, every object that such a
load makes is reached from its result (`covers_loadNode`), so a second node for a place
cannot be lost.
-/

namespace SchemaAtlas

/-- The objects at one place among some nodes are one node. -/
def Schema.Shared (among : Schema → Prop) : Prop :=
  ∀ a b, among a → among b → a.isObject = true → b.isObject = true →
    a.location.document = b.location.document → a.location.path = b.location.path → a = b

namespace Session

variable {first : Nat} {s s' : Session} {t t' : Schema} {st : Store}

/-- What a step of the graph from a node of a load leads to is a node of the load. -/
theorem Made.edge (h : s.Made first t) (hs : s.Records first) (he : s.store.Edge t t') :
    s.Made first t' := by
  have hrecorded := h.recorded hs
  cases he with
  | child hm => exact hrecorded.children _ hm
  | target hr hf =>
    obtain ⟨id, hid, hfirst⟩ := hrecorded.target _ hr
    rw [hid] at hf
    have hid' := (hs.nodes hfirst hf).id
    exact ⟨by rw [hid']; exact hfirst, by rw [hid']; exact hf⟩

theorem Made.reaches (h : s.Made first t) (hs : s.Records first) (hr : s.store.Reaches t t') :
    s.Made first t' := by
  induction hr with
  | refl => exact h
  | tail _ he ih => exact ih.edge hs he

/-- Finished nodes stay in reach. -/
theorem Made.reaches_mono (h : s.Made first t) (hs : s.Records first)
    (hkeep : ∀ {id t}, s.store.node? id = some t → st.node? id = some t)
    (hr : s.store.Reaches t t') : st.Reaches t t' := by
  induction hr with
  | refl => exact .refl
  | @tail a b hr he ih =>
    apply ih.tail
    have ha := (h.reaches hs hr).recorded hs
    cases he with
    | child hm => exact .child hm
    | target href hf =>
      obtain ⟨id, hid, _⟩ := ha.target _ href
      refine .target href ?_
      rw [hid] at hf ⊢
      exact hkeep hf

/-- A reference to a node reaches what the node does, but for a reference itself. -/
theorem reaches_of_referenceTo {reference : Schema} {written : String} {uri : Uri}
    (href : reference.reference? = some (Loading.referenceTo written uri t))
    (hstored : st.node? t.id = some t) (hr : st.Reaches t t') (ht' : t'.isObject = true) :
    st.Reaches reference t' := by
  cases hinner : t.reference? with
  | none =>
    have hedge : st.Edge reference t := by
      refine .target href ?_
      rw [Loading.referenceTo, hinner]
      exact hstored
    exact .head hedge hr
  | some inner =>
    rcases hr.cases_head with rfl | ⟨next, he, hrest⟩
    · obtain ⟨id, location, draft, body⟩ := t
      cases body with
      | object => cases hinner
      | boolean => cases hinner
      | reference => cases ht'
    · cases he with
      | child hm =>
        rw [Account.children_of_reference hinner] at hm
        cases hm
      | target hr' hf =>
        cases Option.some.inj (hinner.symm.trans hr')
        have hedge : st.Edge reference next := by
          refine .target href ?_
          rw [Loading.referenceTo, hinner]
          exact hf
        exact .head hedge hrest

/-- Of two steps that report nothing together, neither does. -/
theorem Frame.quiet {s₁ : Session} (h : Frame s s₁) (h' : Frame s₁ s')
    (hq : s'.report = s.report) : s₁.report = s.report ∧ s'.report = s₁.report := by
  have hback : s₁.report = s.report := by
    have hlen : s₁.report.issues.length ≤ s.report.issues.length := hq ▸ h'.report.length_le
    exact congrArg Report.mk (h.report.eq_of_length_le hlen).symm
  exact ⟨hback, hq.trans hback.symm⟩

/-- All objects made between two sessions are of a document, and in reach if nothing was
reported. -/
def Covered (l : Load) (s s' : Session) (reached : Schema → Prop) : Prop :=
  ∀ id t, s.store.nodes.size ≤ id → s'.store.node? id = some t → t.isObject = true →
    t.location.document = l.documentUri ∧ (s'.report = s.report → reached t)

variable {l : Load} {reached reached' : Schema → Prop}

/-- A step that makes no object. -/
theorem covered_of_step {s₁ : Session} (h : Covered l s s₁ reached)
    (hn : ∀ id t, s'.store.node? id = some t → t.isObject = true →
      s₁.store.node? id = some t)
    (hr : s'.report = s.report → s₁.report = s.report ∧ ∀ t, reached t → reached' t) :
    Covered l s s' reached' := by
  intro id t hid ht hobject
  obtain ⟨hdocument, hreached⟩ := h id t hid (hn id t ht hobject) hobject
  refine ⟨hdocument, ?_⟩
  intro hq
  obtain ⟨hq₁, hall⟩ := hr hq
  exact hall t (hreached hq₁)

theorem covered_self (s : Session) (reached : Schema → Prop) : Covered l s s reached := by
  intro id t hid ht
  rw [Store.node?_of_size_le hid] at ht
  cases ht

/-- Making a node without keywords makes no object. -/
theorem covered_of_add (s : Session) (location : Location) (draft : Draft)
    {body : Body Schema} (hb : (s.store.add location draft body).1.isObject = false) :
    Covered l s { s with store := (s.store.add location draft body).2 } reached := by
  refine covered_of_step (covered_self s reached) ?_ fun hq => ⟨hq, fun _ h => h⟩
  exact fun _ _ hnode hobject => Store.node?_of_add hb hnode hobject

end Session

namespace Loading

open LoadM Session

variable {l : Load} {load : NodeLoader} {p : Position} {s s' : Session} {uri : Uri}

/-- A loader that reaches, from what it reads without an issue, all objects that it makes. -/
def Covers (l : Load) (load : NodeLoader) : Prop :=
  ∀ {p : Position} {hops : Nat} {s s' : Session} {found : Option Schema}, l.Stands p →
    l.Tidy s → Runs (load p.location p.value hops) s (.ok found) s' →
    Covered l s s' fun t => ∃ r ∈ found, s'.store.Reaches r t

theorem not_quiet_of_record {s₁ : Session} (hf : Frame s s₁) {severity : Severity}
    {kind : IssueKind} {document : Uri} {path : Pointer} {message : String} :
    (s₁.record severity kind document path message).report ≠ s.report := by
  intro hq
  have hlen := hf.report.length_le
  have heq := congrArg (fun report => report.issues.length) hq
  simp only [Session.record, Report.record, List.length_append, List.length_singleton] at heq
  omega

theorem Covers.visits (hc : Covers l load) (hl : Framed load) (hk : Recording l.first load)
    {draft : Draft} {asked : Location → Json → Prop} {nodes : List Schema}
    (hasked : ∀ location value, asked location value → l.Stands ⟨l.context, location, value⟩)
    (ht : l.Tidy s) (hv : Digest.Visits (nestedLoad load) draft asked s nodes s') :
    Covered l s s' fun t => ∃ r ∈ nodes, s'.store.Reaches r t := by
  induction hv with
  | start => exact covered_self s _
  | issue _ _ _ _ hv _ ih =>
    refine covered_of_step ih (fun _ _ hnode _ => hnode) ?_
    exact fun hq => absurd hq (not_quiet_of_record (hl.visits hv).1)
  | @boolean s₁ nodes location b hv _ ih =>
    obtain ⟨hrecords, hmade⟩ := hk.visits hl ht.records hv
    refine covered_of_step ih ?_ ?_
    · exact fun _ _ hnode hobject => Store.node?_of_add rfl hnode hobject
    · intro hq
      refine ⟨hq, ?_⟩
      rintro t ⟨r, hr, hreaches⟩
      refine ⟨r, List.mem_append_left _ hr, (hmade r hr).reaches_mono hrecords ?_ hreaches⟩
      exact (Store.grows_add s₁.store location draft (.boolean b)).node?_some
  | @load s₁ s₂ nodes location value found hv ha hr ih =>
    obtain ⟨hrecords, hmade⟩ := hk.visits hl ht.records hv
    have hframe₁ := (hl.visits hv).1
    have hframe₂ := hl.frame hr
    have ht₁ := ht.frame hframe₁ hrecords
    intro id t hid hnode hobject
    by_cases hlt : id < s₁.store.nodes.size
    · rw [hframe₂.store.node? id hlt] at hnode
      obtain ⟨hdocument, hreached⟩ := ih id t hid hnode hobject
      refine ⟨hdocument, ?_⟩
      intro hq
      obtain ⟨r, hmem, hreaches⟩ := hreached (hframe₁.quiet hframe₂ hq).1
      exact ⟨r, List.mem_append_left _ hmem,
        (hmade r hmem).reaches_mono hrecords hframe₂.store.node?_some hreaches⟩
    · obtain ⟨hdocument, hreached⟩ :=
        hc (hasked location value ha) ht₁ hr id t (Nat.le_of_not_lt hlt) hnode hobject
      refine ⟨hdocument, ?_⟩
      intro hq
      obtain ⟨r, hmem, hreaches⟩ := hreached (hframe₁.quiet hframe₂ hq).2
      exact ⟨r, List.mem_append_right _ (Option.mem_toList.mpr hmem), hreaches⟩

theorem Covers.reference (hc : Covers l load) (hl : Framed load) (hk : Recording l.first load)
    (hlocal : l.IsLocal) (hp : l.Stands p) {object : List (String × Json)}
    (hv : p.value = .object object) {written : String} (hw : p.written? = some written)
    {draft : Draft} {hops : Nat} {found : Schema} (ht : l.Tidy s)
    (hr : ReferenceRun load draft p.location written hops s (.ok found) s') :
    Covered l s s' fun t => s'.store.Reaches found t := by
  obtain ⟨path, hplaces⟩ := hp.places
  cases hr with
  | @refers uri r s₁ hresolve hresolved =>
    have hu : p.refers? = some uri := by
      rw [Position.refers?, hw, Option.bind_some, hresolve]
      rfl
    have hadd : ∀ id t,
        (s₁.store.add p.location draft (.reference r)).2.node? id = some t →
        t.isObject = true → s₁.store.node? id = some t :=
      fun _ _ hnode hobject => Store.node?_of_add rfl hnode hobject
    cases hresolved with
    | known => exact covered_of_add s p.location draft rfl
    | reading => exact covered_of_add s p.location draft rfl
    | @chased target s₂ _ _ hchase =>
      have hbegun := ht.beginResolving uri
      have hinside : (s.beginResolving uri).Inside l.library p.context := by
        rw [hplaces.context]
        exact hbegun.inside
      cases hchase with
      | @reached searched before after document location value _ s₃ s₄ s₅ hs₃ hlist hs₄ hlocate
          hrun =>
        have htarget : l.library.target? p.context uri = some ⟨document, location, value⟩ :=
          hl.target?_eq hinside hs₃ hlist hs₄ hlocate hrun (by simp) (by simp)
        have hstands : l.Stands ⟨document, location, value⟩ :=
          Stands.followed hlocal hp hv hu htarget
        obtain ⟨_, hplaces'⟩ := hstands.places
        have hcontext : document = l.context := hplaces'.context
        subst hcontext
        obtain ⟨hidle, _⟩ := hl.searches_vain hs₄
        have hframe₄ := (hl.searches hs₄).1
        have ht₄ := (hbegun.frame hframe₄ (hbegun.records.alike hidle.alike)).push
        obtain ⟨hrecords, hmade⟩ := hk ht₄.records hrun
        have hsame : (s₄.push l.context).store.nodes.size = s.store.nodes.size :=
          congrArg (fun store => store.nodes.size) hidle.alike.store
        intro id t hid hnode hobject
        obtain ⟨hdocument, hreached⟩ := hc hstands ht₄ hrun id t
          (hsame ▸ hid) (hadd id t hnode hobject) hobject
        refine ⟨hdocument, ?_⟩
        intro hq
        obtain ⟨_, ⟨⟩, hreaches⟩ := hreached (hframe₄.quiet (hl.frame hrun).pop hq).2
        have htargetMade := hmade target rfl
        have hgrows := Store.grows_add s₅.store p.location draft
          (.reference (referenceTo written uri target))
        exact reaches_of_referenceTo rfl (hgrows.node?_some htargetMade.stored)
          (htargetMade.reaches_mono hrecords hgrows.node?_some hreaches) hobject

theorem Identified.eq_of_anonymous {keys : List String} {location inner : Location}
    {object : List (String × Json)} {declared : List Uri}
    (h : Identified keys location object s inner declared s')
    (ha : Lookup.declaredId? keys (.object object) = none) : inner = location ∧ s' = s := by
  cases h with
  | anonymous => exact ⟨rfl, rfl⟩
  | declared hid =>
    rw [ha] at hid
    cases hid
  | repeated hid =>
    rw [ha] at hid
    cases hid
  | broken hid =>
    rw [ha] at hid
    cases hid

theorem Covers.object (hc : Covers l load) (hl : Framed load) (hk : Recording l.first load)
    (hlocal : l.IsLocal) (hp : l.Stands p) {object : List (String × Json)}
    (hm : p.members? = some object) (hv : p.value = .object object) (ht : l.Tidy s)
    {N : Schema} (hr : ObjectRun load p.context p.location object s (.ok N) s') :
    Covered l s s' fun t => s'.store.Reaches N t := by
  obtain ⟨path, hplaces⟩ := hp.places
  have hinner : p.inner = p.location := (hlocal.inner_eq hplaces).trans hplaces.location.symm
  have hanonymous : Lookup.declaredId? p.context.active.idKeys (.object object) = none := by
    rw [← hv]
    exact Lookup.declaredId?_of_anonymous (hlocal.anonymous_at hplaces)
  have hkeys : (Entries.keys object).Nodup := by
    have hstored := Json.all_self (Lookup.all_at? hlocal.stored hplaces.value)
    rw [hv] at hstored
    simpa [Json.isStored] using hstored
  cases hr with
  | @finished inner declared builder s₁ s₂ hid hread =>
    obtain ⟨rfl, rfl⟩ := hid.eq_of_anonymous hanonymous
    generalize huris : p.location.pointerUri :: p.location.uri :: declared = uris at hread ⊢
    have hentered := ht.enter uris
    have hcurrent : (s₁.enter uris).current? = some p.context := by
      rw [hplaces.context]
      exact ht.inside.current?
    obtain ⟨nodes, hvisits, _, hheld⟩ :=
      (keywordsRun_gathers load p.context p.location object).ok hread
    have hcovered := hc.visits hl hk (by
      intro location value ha
      rw [← hinner] at ha
      rw [← hplaces.context]
      exact Stands.nested hlocal hp hm hv ha) hentered hvisits
    obtain ⟨hrecords, hmade⟩ := hk.visits hl hentered.records hvisits
    have hbody := keywordsRun_body hread
    have hnumber : Schema.id (.node s₁.store.nodes.size p.location p.context.draft
        builder.body) = s₁.store.nodes.size := rfl
    obtain ⟨hstored, hkeep⟩ := (hl.visits hvisits).1.node?_leave hnumber
    intro id t hid hnode hobject
    by_cases hnew : id = s₁.store.nodes.size
    · subst hnew
      cases Option.some.inj (hstored.symm.trans hnode)
      refine ⟨?_, fun _ => .refl⟩
      rw [Schema.location, hplaces.location]
      rfl
    · have hold : s₂.store.node? id = some t :=
        (Store.node?_complete_of_ne _ hnew).symm.trans hnode
      have hsize : (s₁.enter uris).store.nodes.size = s₁.store.nodes.size + 1 :=
        Store.size_reserve _
      obtain ⟨hdocument, hreached⟩ := hcovered id t (by omega) hold hobject
      refine ⟨hdocument, ?_⟩
      intro hq
      obtain ⟨r, hr, hreaches⟩ := hreached hq
      obtain ⟨_, hheld⟩ := hheld hkeys ⟨p.context, hl.loud p.context, hcurrent, hq⟩
      obtain ⟨kind, segment, hchild⟩ := (Schema.mem_children (s := .node s₁.store.nodes.size
        p.location p.context.draft builder.body) hbody).mpr (hheld hr)
      exact .head (.child hchild) ((hmade r hr).reaches_mono hrecords hkeep hreaches)

theorem covers_loadWith (hc : Covers l load) (hl : Framed load) (hk : Recording l.first load)
    (hlocal : l.IsLocal) : Covers l (loadWith load) := by
  intro p hops s s' found hp ht hload
  obtain ⟨path, hplaces⟩ := hp.places
  have hcurrent : s.current? = some p.context := by
    rw [hplaces.context]
    exact ht.inside.current?
  have hfound : ∀ {schema : Schema}, (Covered l s s' fun t => s'.store.Reaches schema t) →
      Covered l s s' fun t => ∃ r ∈ some schema, s'.store.Reaches r t :=
    fun h => covered_of_step h (fun _ _ hnode _ => hnode) fun hq => ⟨hq, fun _ hr => ⟨_, rfl, hr⟩⟩
  cases nodeRun_of_runs hload with
  | outside => exact covered_self s _
  | known => exact covered_self s _
  | @reference context object written schema _ _ hv _ href hr =>
    have hw : p.written? = some written := by
      simp [Position.written?, hv, Json.member?, href, Json.string?]
    exact hfound (hc.reference hl hk hlocal hp hv hw ht hr)
  | @object context object schema _ hcontext hv _ href hr =>
    cases Option.some.inj (hcurrent.symm.trans hcontext)
    have hm : p.members? = some object := by
      simp [Position.members?, hv, Entries.contains, href]
    exact hfound (hc.object hl hk hlocal hp hm hv ht hr)
  | @boolean context b => exact covered_of_add s p.location context.draft rfl
  | refused =>
    refine covered_of_step (covered_self s fun _ => False)
      (fun _ _ hnode _ => hnode) ?_
    exact fun hq => absurd hq (not_quiet_of_record (.refl s))

/-- All objects that a load makes are of its document, and reached from its result if the
load has no issues. -/
theorem covers_loadNode (hlocal : l.IsLocal) (steps : Nat) : Covers l (loadNode steps) := by
  induction steps with
  | zero =>
    intro p hops s s' found _ _ hr
    cases (runs_throw.mp hr).1
  | succ steps ih =>
    exact covers_loadWith ih (framed_loadNode steps) (recording_loadNode _ steps) hlocal

end Loading

/-! ## Loads that share -/

/-- When nothing is being read, places are single if and only if finished objects are
shared. -/
theorem Session.single_iff_shared {first : Nat} {s : Session} {uri : Uri}
    (hs : s.Records first) (hempty : s.inProgress = [])
    (hdocument : ∀ {id t}, first ≤ id → s.store.node? id = some t → t.isObject = true →
      t.location.document = uri) : Single first s ↔ Schema.Shared (s.Made first) := by
  constructor
  · intro hsingle a b ha hb hobject hobject' hsame hpath
    have huri : a.location.pointerUri = b.location.pointerUri := by
      rw [Location.pointerUri, Location.pointerUri, hsame, hpath]
    have hid := hsingle _ _ _ (.finished ha.first ha.stored hobject huri)
      (.finished hb.first hb.stored hobject' rfl)
    have hstored := hb.stored
    rw [← hid, ha.stored] at hstored
    exact Option.some.inj hstored
  · intro hshared place id id' ho ho'
    have hfinished : ∀ {id}, Occupies first s place id → ∃ t, s.Made first t ∧ t.id = id ∧
        t.isObject = true ∧ t.location.document = uri ∧ t.location.pointerUri = place := by
      intro id ho
      cases ho with
      | @finished t hfirst hnode hobject huri =>
        have hid := (hs.nodes hfirst hnode).id
        exact ⟨t, ⟨hid ▸ hfirst, hid ▸ hnode⟩, hid, hobject, hdocument hfirst hnode hobject, huri⟩
      | reading hmem =>
        rw [hempty] at hmem
        cases hmem
    obtain ⟨a, ha, rfl, hobject, hdoc, huri⟩ := hfinished ho
    obtain ⟨b, hb, rfl, hobject', hdoc', huri'⟩ := hfinished ho'
    rw [Location.pointerUri, hdoc] at huri
    rw [Location.pointerUri, hdoc'] at huri'
    have hpath := Location.withPath_injective (huri.trans huri'.symm)
    rw [hshared a b ha hb hobject hobject' (hdoc.trans hdoc'.symm) hpath]

namespace Load

open Loading Session

variable {l : Load}

/-- Whether a load comes to no object a second time while it is being read. -/
def readsOnce (l : Load) : Bool :=
  match l.context.locate l.uri with
  | some start =>
    match (ExceptT.run (loadOnce l.workspace.stepLimit start.1 start.2 0)).run l.session with
    | (.ok _, _) => true
    | (.error _, _) => false
  | none => false

theorem session_inProgress (l : Load) : l.session.inProgress = [] := by
  rw [l.session_eq]
  rfl

/-- A load begins without nodes of its own. -/
theorem session_node? {id : Nat} {t : Schema} (hid : l.first ≤ id) :
    l.session.store.node? id ≠ some t := by
  intro ht
  rw [l.session_eq] at ht
  change l.workspace.store.node? id = some t at ht
  rw [Store.node?_of_size_le hid] at ht
  cases ht

theorem records_session (hcache : ∀ uri, l.workspace.cache.get? uri = none) :
    l.session.Records l.first := by
  refine ⟨?_, ?_, ?_, ?_, ?_, ?_⟩
  · intro entry he
    rw [session_inProgress] at he
    cases he
  · rw [l.session_eq]
    exact Nat.le_refl _
  · intro uri
    rw [l.session_eq]
    exact hcache uri
  · intro entry he
    rw [session_inProgress] at he
    cases he
  · intro entry he
    rw [l.session_eq] at he
    cases he
  · exact fun hid ht => absurd ht (session_node? hid)

theorem tidy_session (hcache : l.workspace.cache = .empty) :
    l.Tidy l.session ∧ Single l.first l.session := by
  refine ⟨⟨l.inside, records_session fun uri => by rw [hcache]; rfl⟩, ?_⟩
  intro uri id id' ho
  cases ho with
  | finished hid ht => exact absurd ht (session_node? hid)
  | reading hmem =>
    rw [session_inProgress] at hmem
    cases hmem

theorem IsPlain.stands_start (h : l.IsPlain) {start : Location × Json}
    (hl : l.context.locate l.uri = some start) :
    l.Stands ⟨l.context, start.1, start.2⟩ := by
  have hstart : l.start? = some ⟨l.context, start.1, start.2⟩ := by
    rw [Load.start?, hl]
    rfl
  exact ⟨h.start hstart, fun _ => ⟨_, hstart, .refl⟩⟩

theorem readsOnce_iff_single (h : l.IsLocal) (hcache : l.workspace.cache = .empty)
    {start : Location × Json} (hl : l.context.locate l.uri = some start)
    {found : Option Schema} {s : Session} (hr : Runs (l.reading start) l.session (.ok found) s) :
    l.readsOnce = true ↔ Single l.first s := by
  obtain ⟨htidy, hsingle⟩ := tidy_session hcache
  have hagrees : Agrees l.first (loadOnce l.workspace.stepLimit start.1 start.2 0)
      (l.reading start) l.session :=
    mirrors_loadOnce h l.workspace.stepLimit (h.stands_start hl) htidy hsingle
  unfold readsOnce
  simp only [hl]
  constructor
  · intro honce
    split at honce
    · rename_i found' s' hruns
      obtain ⟨hr', hsingle'⟩ := (hagrees found' s').mp hruns
      rw [(hr.unique hr').2]
      exact hsingle'
    · cases honce
  · intro hsingle'
    have hruns : (ExceptT.run (loadOnce l.workspace.stepLimit start.1 start.2 0)).run l.session =
        (.ok found, s) := (hagrees found s).mpr ⟨hr, hsingle'⟩
    rw [hruns]

/-- The nodes that a load makes. -/
def Makes (l : Load) (t : Schema) : Prop :=
  l.first ≤ t.id ∧ l.run.2.store.node? t.id = some t

/-- Loads share their objects if and only if they read all of them once. -/
theorem shared_iff_readsOnce (h : l.IsLocal) (hcache : l.workspace.cache = .empty) {s : Schema}
    {report : Report} (hr : l.run.1 = .ok (s, report)) :
    (Schema.Shared l.Makes ↔ l.readsOnce = true) ∧
      (∀ t, l.run.2.store.Reaches s t → l.Makes t) ∧
      (report = l.session.report → Schema.Shared (l.run.2.store.Reaches s) →
        Schema.Shared l.Makes) := by
  obtain ⟨start, s', hl, hruns, hreport, _, heq⟩ := Load.run_ok hr
  obtain ⟨htidy, _⟩ := tidy_session hcache
  have hstands := h.stands_start hl
  obtain ⟨hrecords, hmade⟩ :=
    recording_loadNode l.first l.workspace.stepLimit htidy.records hruns
  have hframe := (framed_loadNode l.workspace.stepLimit).frame hruns
  have hempty : s'.inProgress = [] := by
    rw [hframe.inProgress htidy.records.numbered, l.session_eq]
    rfl
  have hsize : l.session.store.nodes.size = l.first := by
    rw [l.session_eq]
    rfl
  have hcovered := covers_loadNode h l.workspace.stepLimit
    (p := ⟨l.context, start.1, start.2⟩) hstands htidy hruns
  have hmakes : ∀ t, l.Makes t ↔ s'.Made l.first t := by
    intro t
    rw [Makes, heq]
    exact ⟨fun ⟨hfirst, hstored⟩ => ⟨hfirst, hstored⟩, fun ⟨hfirst, hstored⟩ => ⟨hfirst, hstored⟩⟩
  have hmakes' : l.Makes = s'.Made l.first := funext fun t => propext (hmakes t)
  have hshared : Single l.first s' ↔ Schema.Shared (s'.Made l.first) :=
    Session.single_iff_shared hrecords hempty fun hid hnode hobject =>
      (hcovered _ _ (hsize ▸ hid) hnode hobject).1
  rw [hmakes', heq]
  refine ⟨hshared.symm.trans (readsOnce_iff_single h hcache hl hruns).symm, ?_, ?_⟩
  · exact fun t ht => (hmade s rfl).reaches hrecords ht
  · intro hquiet hreached a b ha hb hobject hobject'
    have hreach : ∀ t, s'.Made l.first t → t.isObject = true → s'.store.Reaches s t := by
      intro t ht hobject
      obtain ⟨_, hreached⟩ := hcovered t.id t (hsize ▸ ht.first) ht.stored hobject
      obtain ⟨_, ⟨⟩, hreaches⟩ := hreached (hreport.trans hquiet)
      exact hreaches
    exact hreached a b (hreach a ha hobject) (hreach b hb hobject') hobject hobject'

end Load

/-- A load shares all objects that it makes if and only if it reads each of them once. For
those that a schema reaches it has to, unless the reading adds an issue. -/
theorem shared_of_request {w w' : Workspace} {policy : Policy} {request : Request} {l : Load}
    {s : Schema} (hl : request.load? policy w = some l) (hcache : w.cache = .empty)
    (hstored : l.document.all Json.isStored = true)
    (hanonymous : Lookup.Anonymous l.context.active.idKeys l.document)
    (hfragment : ∀ p written, l.Meets p → p.written? = some written → written.front = '#')
    (h : request.run policy w = (.ok s, w')) :
    (Schema.Shared l.Makes ↔ l.readsOnce = true) ∧
      (l.readsOnce = true → Schema.Shared (w'.store.Reaches s)) ∧
      (l.run.1 = .ok (s, l.session.report) → Schema.Shared (w'.store.Reaches s) →
        l.readsOnce = true) := by
  have hlocal : l.IsLocal := ⟨⟨Request.load?_documentUri hl, hstored, hanonymous⟩, hfragment⟩
  have hempty : l.workspace.cache = .empty := (Request.load?_workspace hl).2.1.trans hcache
  obtain ⟨report, hrun, rfl⟩ := Request.run_ok_of_load? hl h
  obtain ⟨hiff, hmakes, hquiet⟩ := Load.shared_iff_readsOnce hlocal hempty hrun
  refine ⟨hiff, ?_, ?_⟩
  · intro honce a b ha hb
    exact hiff.mpr honce a b (hmakes a ha) (hmakes b hb)
  · intro hsame hshared
    rw [hrun] at hsame
    cases hsame
    exact hiff.mp (hquiet rfl hshared)

/-- A schema with a definition that is referred to before it is read, and inside of itself. -/
def Request.forward : Request :=
  .named ⟨"http", some "e.com", .segments ["s.json"], none, none⟩
    (.object [
      ("additionalProperties", .object [("$ref", .string "#/definitions/d")]),
      ("definitions", .object [
        ("d", .object [
          ("properties", .object [
            ("up", .object [("items", .object [("$ref", .string "#/definitions/d")])])])])])])

theorem shared_of_forward_request : ∃ l s w',
    Request.forward.load? .standard .empty = some l ∧
      Request.forward.run .standard .empty = (.ok s, w') ∧ l.readsOnce = true ∧
      Schema.Shared l.Makes ∧ Schema.Shared (w'.store.Reaches s) := by
  have hloads : Request.forward.loadsPlain .standard .empty = true := by
    decide +kernel
  obtain ⟨l, hl, hplain, hfragments⟩ := Request.isPlain_of_loadsPlain hloads
  have honce : l.readsOnce = true := by
    cases hl
    decide +kernel
  have hcheck : (Request.forward.run .standard .empty).1.isOk = true := by
    decide +kernel
  cases hr : Request.forward.run .standard .empty with
  | mk answer w' =>
    rw [hr] at hcheck
    cases answer with
    | error failure => cases hcheck
    | ok s =>
      obtain ⟨hiff, hreached, _⟩ :=
        shared_of_request hl rfl hplain.stored hplain.anonymous
          (hplain.isLocal hfragments).fragment hr
      exact ⟨l, s, w', hl, rfl, honce, hiff.mpr honce, hreached honce⟩

/-- A schema with a reference to an object inside of a definition, which refers to the
definition. -/
def Request.inward : Request :=
  .named ⟨"http", some "e.com", .segments ["s.json"], none, none⟩
    (.object [
      ("additionalProperties", .object [("$ref", .string "#/definitions/d/properties/x")]),
      ("definitions", .object [
        ("d", .object [
          ("properties", .object [
            ("x", .object [
              ("properties", .object [
                ("up", .object [("$ref", .string "#/definitions/d")])])])])])])])

/-- The object that is referred to is read again inside of the definition. -/
theorem unshared_of_inward_request : ∃ l s w',
    Request.inward.load? .standard .empty = some l ∧ l.IsPlain ∧
      l.document.all Load.refersToFragment = true ∧
      Request.inward.run .standard .empty = (.ok s, w') ∧
      ¬ Schema.Shared (w'.store.Reaches s) := by
  have hcheck : (match Request.inward.run .standard .empty with
      | (.ok s, w') =>
        let nodes := (w'.store.next s).flatMap w'.store.next
        nodes.any fun a => nodes.any fun b => a.isObject && b.isObject &&
          a.location.document = b.location.document && a.location.path = b.location.path &&
          a.id != b.id
      | (.error _, _) => false) = true := by
    decide +kernel
  have hloads : Request.inward.loadsPlain .standard .empty = true := by
    decide +kernel
  obtain ⟨l, hl, hplain, hfragments⟩ := Request.isPlain_of_loadsPlain hloads
  cases hr : Request.inward.run .standard .empty with
  | mk answer w' =>
    rw [hr] at hcheck
    cases answer with
    | error failure => cases hcheck
    | ok s =>
      refine ⟨l, s, w', hl, hplain, hfragments, rfl, ?_⟩
      intro hshared
      have hreached : ∀ t ∈ (w'.store.next s).flatMap w'.store.next, w'.store.Reaches s t := by
        intro t ht
        obtain ⟨middle, hm, ht⟩ := List.mem_flatMap.mp ht
        exact .tail (.single (Store.mem_next.mp hm)) (Store.mem_next.mp ht)
      obtain ⟨a, ha, hcheck⟩ := List.any_eq_true.mp hcheck
      obtain ⟨b, hb, hcheck⟩ := List.any_eq_true.mp hcheck
      simp only [Bool.and_eq_true, decide_eq_true_eq, bne_iff_ne, ne_eq] at hcheck
      obtain ⟨⟨⟨⟨hobject, hobject'⟩, hdocument⟩, hpath⟩, hne⟩ := hcheck
      have heq := hshared a b (hreached a ha) (hreached b hb) hobject hobject' hdocument hpath
      exact hne (congrArg Schema.id heq)

end SchemaAtlas
