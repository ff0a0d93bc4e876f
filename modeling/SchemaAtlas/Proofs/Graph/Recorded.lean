import SchemaAtlas.Proofs.Graph.Settled

/-!
# The nodes that a load makes

A load counts its nodes from a first number on. All of them have the number that they are
stored under, the objects among them are built at the URIs of their places, and they lead
to nodes of the same load only, in the end. `recording_loadNode` says that reading keeps this
true, whatever the documents are.
-/

namespace SchemaAtlas

/-- Whether a node has keywords. -/
def Schema.isObject (s : Schema) : Bool :=
  match s.body with
  | .object .. => true
  | _ => false

theorem Schema.children_of_isObject {s : Schema} (h : s.isObject = false) : s.children = [] := by
  obtain ⟨id, location, draft, body⟩ := s
  cases body with
  | object => cases h
  | boolean => rfl
  | reference => rfl

theorem Store.node?_of_add {st : Store} {location : Location} {draft : Draft}
    {body : Body Schema} {id : Nat} {t : Schema}
    (hb : (st.add location draft body).1.isObject = false)
    (h : (st.add location draft body).2.node? id = some t) (hobject : t.isObject = true) :
    st.node? id = some t := by
  rcases Store.node?_add_cases h with hold | ⟨rfl, _⟩
  · exact hold
  · rw [hb] at hobject
    cases hobject

namespace Session

/-- A finished node with a number from `first` on. -/
structure Made (first : Nat) (s : Session) (t : Schema) : Prop where
  first : first ≤ t.id
  stored : s.store.node? t.id = some t

/-- A reference to a number from `first` on. -/
def AimsAt (first : Nat) (r : Reference) : Prop := ∃ id, r.target = .node id ∧ first ≤ id

/-- What is true of the node stored under a number. -/
structure Recorded (first : Nat) (s : Session) (id : Nat) (t : Schema) : Prop where
  id : t.id = id
  built : t.isObject = true → Entries.contains t.location.pointerUri s.built = true
  children : ∀ entry ∈ t.children, s.Made first entry.2.2
  target : ∀ r, t.reference? = some r → AimsAt first r

/-- A session that started with the numbers from `first` on and an empty cache. -/
structure Records (first : Nat) (s : Session) : Prop where
  numbered : s.Numbered
  size : first ≤ s.store.nodes.size
  cache : ∀ uri, s.cache.get? uri = none
  inProgress : ∀ entry ∈ s.inProgress, first ≤ entry.2
  built : ∀ entry ∈ s.built, s.Made first entry.2
  nodes : ∀ {id t}, first ≤ id → s.store.node? id = some t → s.Recorded first id t

variable {first : Nat} {s s' : Session} {t : Schema}

theorem Made.grows (h : s.Made first t) (hg : s.store.Grows s'.store) : s'.Made first t :=
  ⟨h.first, hg.node?_some h.stored⟩

theorem Recorded.grows {id : Nat} (h : s.Recorded first id t) (hg : s.store.Grows s'.store)
    (hb : ∀ uri, Entries.contains uri s.built = true → Entries.contains uri s'.built = true) :
    s'.Recorded first id t :=
  ⟨h.id, fun ho => hb _ (h.built ho), fun entry he => (h.children entry he).grows hg, h.target⟩

theorem Made.recorded (h : s.Made first t) (hs : s.Records first) : s.Recorded first t.id t :=
  hs.nodes h.first h.stored

theorem Frame.contains (h : Frame s s') {uri : Uri}
    (hu : Entries.contains uri s.built = true) : Entries.contains uri s'.built = true := by
  obtain ⟨schema, hb⟩ := Option.isSome_iff_exists.mp hu
  exact Option.isSome_iff_exists.mpr ⟨schema, h.built hb⟩

/-- A step that builds nothing and makes no node but one. -/
theorem Records.frame (h : s.Records first) (hf : Frame s s') (hb : s'.built = s.built)
    (hn : ∀ {id t}, s'.store.node? id = some t → s.store.node? id = some t ∨
      s'.Recorded first id t) : s'.Records first where
  numbered := hf.numbered h.numbered
  size := Nat.le_trans h.size hf.store.size
  cache := by
    rw [hf.cache]
    exact h.cache
  inProgress := by
    rw [hf.inProgress h.numbered]
    exact h.inProgress
  built := by
    rw [hb]
    exact fun entry he => (h.built entry he).grows hf.store
  nodes := by
    intro id t hid ht
    rcases hn ht with hold | hnew
    · exact (h.nodes hid hold).grows hf.store fun uri hu => hf.contains hu
    · exact hnew

theorem Records.alike (h : s.Records first) (ha : Alike s s') : s'.Records first := by
  obtain ⟨hstore, hprogress, hbuilt, hcache⟩ := ha
  refine ⟨?_, ?_, ?_, ?_, ?_, ?_⟩
  · rw [Session.Numbered, hstore, hprogress]
    exact h.numbered
  · rw [hstore]
    exact h.size
  · rw [hcache]
    exact h.cache
  · rw [hprogress]
    exact h.inProgress
  · rw [hbuilt]
    exact fun entry he => (h.built entry he).grows (hstore ▸ .refl _)
  · intro id t hid ht
    rw [hstore] at ht
    exact (h.nodes hid ht).grows (hstore ▸ .refl _) fun uri hu => hbuilt ▸ hu

/-- Making a node without keywords. -/
theorem Records.add (h : s.Records first) (location : Location) (draft : Draft)
    (body : Body Schema) (hb : (s.store.add location draft body).1.isObject = false)
    (hr : ∀ r, body = .reference r → AimsAt first r) :
    Session.Records first { s with store := (s.store.add location draft body).2 } ∧
      Session.Made first { s with store := (s.store.add location draft body).2 }
        (s.store.add location draft body).1 := by
  refine ⟨h.frame (frame_add s location draft body) rfl ?_, h.size, Store.node?_add _ _ _ _⟩
  intro id t ht
  rcases Store.node?_add_cases ht with hold | ⟨rfl, hid⟩
  · exact Or.inl hold
  · refine Or.inr ⟨hid, ?_, ?_, ?_⟩
    · intro hobject
      rw [hb] at hobject
      cases hobject
    · rw [Schema.children_of_isObject hb]
      exact fun entry he => (nomatch he)
    · intro r href
      cases body with
      | object => cases href
      | boolean => cases href
      | reference r' =>
        cases href
        exact hr r rfl

theorem Records.enter (h : s.Records first) (uris : List Uri) :
    (s.enter uris).Records first where
  numbered := h.numbered.enter uris
  size := Nat.le_trans h.size (Store.grows_reserve _).size
  cache := h.cache
  inProgress := by
    intro entry he
    rcases Account.mem_enter he with ⟨_, hid⟩ | he
    · rw [hid]
      exact h.size
    · exact h.inProgress entry he
  built := fun entry he => (h.built entry he).grows (Store.grows_reserve _)
  nodes := by
    intro id t hid ht
    have hold : s.store.node? id = some t := (Store.node?_reserve _ _).symm.trans ht
    exact (h.nodes hid hold).grows (Store.grows_reserve _) fun _ hu => hu

/-- Finishing a node under URIs, as one that the load made. -/
theorem Records.finish (h : s.Records first) {uris : List Uri} (ht : s.Made first t) :
    (s.finish t uris).Records first := by
  have hsame : s.store.Grows (s.finish t uris).store := .refl _
  refine ⟨h.numbered, h.size, h.cache, h.inProgress, ?_, ?_⟩
  · intro entry he
    rcases Account.mem_finish he with he | ⟨heq, _⟩
    · exact (h.built entry he).grows hsame
    · rw [heq]
      exact ht.grows hsame
  · intro id t' hid ht'
    exact (h.nodes hid ht').grows hsame fun uri hu => Entries.contains_putNew _ (Or.inr hu)

/-- Finishing the node whose keywords have been read. -/
theorem Records.leave (h : s.Records first) {uris : List Uri} (hf : Frame (s.enter uris) s')
    (hs' : s'.Records first) {N : Schema} (hid : N.id = s.store.nodes.size)
    (hN : N.reference? = none) (huri : N.location.pointerUri ∈ uris)
    (hc : ∀ entry ∈ N.children, s'.Made first entry.2.2) :
    (s'.leave N uris).Records first ∧ (s'.leave N uris).Made first N := by
  have hframe : Frame s (s'.leave N uris) := hf.leave hid
  obtain ⟨hstored, hkeep⟩ := hf.node?_leave hid
  have hmade : ∀ {t}, s'.Made first t → (s'.leave N uris).Made first t := fun ht =>
    ⟨ht.first, hkeep ht.stored⟩
  have hnew : (s'.leave N uris).Made first N := ⟨hid ▸ h.size, hstored⟩
  refine ⟨⟨hframe.numbered h.numbered, Nat.le_trans h.size hframe.store.size, ?_, ?_, ?_, ?_⟩,
    hnew⟩
  · rw [hframe.cache]
    exact h.cache
  · rw [hframe.inProgress h.numbered]
    exact h.inProgress
  · intro entry he
    rcases Account.mem_finish he with he | ⟨heq, _⟩
    · exact hmade (hs'.built entry he)
    · rw [heq]
      exact hnew
  · intro id t hfirst ht
    by_cases heq : id = N.id
    · subst heq
      cases Option.some.inj (hstored.symm.trans ht)
      refine ⟨rfl, ?_, fun entry he => hmade (hc entry he), ?_⟩
      · intro _
        exact Entries.contains_putNew _ (Or.inl huri)
      · intro r hr
        rw [hN] at hr
        cases hr
    · have hold : s'.store.node? id = some t := (Store.node?_complete_of_ne _ heq).symm.trans ht
      obtain ⟨hnumber, hbuilt, hchildren, htarget⟩ := hs'.nodes hfirst hold
      refine ⟨hnumber, ?_, fun entry he => hmade (hchildren entry he), htarget⟩
      intro hobject
      exact Entries.contains_putNew _ (Or.inr (hbuilt hobject))

end Session

namespace Loading

open LoadM Session

/-- A loader whose nodes are recorded. -/
def Recording (first : Nat) (load : NodeLoader) : Prop :=
  ∀ {location : Location} {value : Json} {hops : Nat} {s s' : Session} {found : Option Schema},
    s.Records first → Runs (load location value hops) s (.ok found) s' →
    s'.Records first ∧ ∀ t ∈ found, s'.Made first t

variable {first : Nat} {load : NodeLoader} {s s' : Session} {uri : Uri} {hops : Nat}

theorem Recording.visits (hk : Recording first load) (hl : Framed load) {draft : Draft}
    {asked : Location → Json → Prop} {nodes : List Schema} (h : s.Records first)
    (hv : Digest.Visits (nestedLoad load) draft asked s nodes s') :
    s'.Records first ∧ ∀ t ∈ nodes, s'.Made first t := by
  induction hv with
  | start => exact ⟨h, by simp⟩
  | issue severity kind location message _ _ ih =>
    exact ⟨ih.1.alike (idle_record ..).alike, fun t ht => (ih.2 t ht).grows (.refl _)⟩
  | @boolean s₁ nodes location b _ _ ih =>
    obtain ⟨hs₁, hnodes⟩ := ih
    obtain ⟨hs₂, hnew⟩ := hs₁.add location draft (.boolean b) rfl (by simp)
    refine ⟨hs₂, ?_⟩
    intro t ht
    rcases List.mem_append.mp ht with ht | ht
    · exact (hnodes t ht).grows (Store.grows_add _ _ _ _)
    · rw [List.mem_singleton.mp ht]
      exact hnew
  | load _ _ hr ih =>
    obtain ⟨hs₁, hnodes⟩ := ih
    obtain ⟨hs₂, hfound⟩ := hk hs₁ hr
    refine ⟨hs₂, ?_⟩
    intro t ht
    rcases List.mem_append.mp ht with ht | ht
    · exact (hnodes t ht).grows (hl.frame hr).store
    · exact hfound t (Option.mem_toList.mp ht)

theorem Recording.chase (hk : Recording first load) (hl : Framed load) {origin : Location}
    {target : Schema} (h : s.Records first)
    (hc : ChaseRun load origin uri hops s (.ok target) s') :
    s'.Records first ∧ s'.Made first target := by
  cases hc with
  | @reached _ _ _ document _ _ _ _ s₁ s₂ _ _ hs _ hr =>
    have hs₁ := h.alike (hl.searches_vain hs).1.alike
    have hpushed : (s₁.push document).Records first := hs₁.alike ⟨rfl, rfl, rfl, rfl⟩
    obtain ⟨hs₂, htarget⟩ := hk hpushed hr
    exact ⟨hs₂.alike ⟨rfl, rfl, rfl, rfl⟩, (htarget target rfl).grows (.refl _)⟩

/-- A reference to a node that the load made aims at one that it makes. -/
theorem aimsAt_referenceTo (h : s.Records first) {target : Schema} (ht : s.Made first target)
    (written : String) (uri : Uri) : AimsAt first (referenceTo written uri target) := by
  unfold referenceTo
  cases hr : target.reference? with
  | none => exact ⟨target.id, rfl, ht.first⟩
  | some inner =>
    obtain ⟨id, hid, hfirst⟩ := (ht.recorded h).target inner hr
    exact ⟨id, hid, hfirst⟩

theorem Recording.resolve (hk : Recording first load) (hl : Framed load) {location : Location}
    {written : String} {reference : Reference} (h : s.Records first)
    (hr : ResolveRun load location written uri hops s (.ok reference) s') :
    s'.Records first ∧ AimsAt first reference := by
  cases hr with
  | known hb =>
    rw [h.cache, Option.or_none] at hb
    exact ⟨h, aimsAt_referenceTo h (h.built _ (Entries.mem_of_get? hb)) _ _⟩
  | reading _ hp => exact ⟨h, _, rfl, h.inProgress _ (Entries.mem_of_get? hp)⟩
  | @chased target s₁ _ _ hc =>
    have hbegun : (s.beginResolving uri).Records first := h.alike ⟨rfl, rfl, rfl, rfl⟩
    obtain ⟨hs₁, hmade⟩ := hk.chase hl hbegun hc
    have hended : (s₁.endResolving uri).Records first := hs₁.alike ⟨rfl, rfl, rfl, rfl⟩
    have htarget : (s₁.endResolving uri).Made first target := hmade.grows (.refl _)
    exact ⟨hended.finish htarget, aimsAt_referenceTo hended htarget _ _⟩

theorem Identified.pointerUri_eq {keys : List String} {location inner : Location}
    {object : List (String × Json)} {declared : List Uri}
    (h : Identified keys location object s inner declared s') :
    inner.pointerUri = location.pointerUri := by
  have hid : ∀ {id : String}, location.withId id = .ok inner →
      inner.pointerUri = location.pointerUri := by
    intro id hw
    obtain ⟨hdocument, hpath, _⟩ := Location.withId_path hw
    rw [Location.pointerUri, Location.pointerUri, hdocument, hpath]
  cases h with
  | anonymous => rfl
  | declared _ hw => exact hid hw
  | repeated _ hw => exact hid hw
  | broken => rfl

theorem Recording.object (hk : Recording first load) (hl : Framed load)
    {context : OpenDocument} {location : Location} {object : List (String × Json)} {N : Schema}
    (h : s.Records first) (hr : ObjectRun load context location object s (.ok N) s') :
    s'.Records first ∧ s'.Made first N := by
  cases hr with
  | @finished inner declared builder s₁ s₂ hid hread =>
    have hs₁ : s₁.Records first := h.alike hid.idle.alike
    obtain ⟨nodes, hvisits, hheld, _⟩ := (keywordsRun_gathers load context inner object).ok hread
    obtain ⟨hs₂, hmade⟩ := hk.visits hl (hs₁.enter _) hvisits
    have hbody := keywordsRun_body hread
    have hN : Schema.reference? (.node s₁.store.nodes.size inner context.draft
        builder.body) = none := by
      simp [Schema.reference?, Schema.body, hbody]
    apply hs₁.leave (hl.visits hvisits).1 hs₂ rfl hN
    · change inner.pointerUri ∈ _
      rw [hid.pointerUri_eq]
      exact List.mem_cons_self
    · intro entry he
      have hchild := (Schema.mem_children (s := .node s₁.store.nodes.size inner
        context.draft builder.body) hbody).mp ⟨entry.1, entry.2.1, he⟩
      exact hmade _ (hheld hchild)

theorem recording_loadWith (hk : Recording first load) (hl : Framed load) :
    Recording first (loadWith load) := by
  intro location value hops s s' found h hload
  cases nodeRun_of_runs hload with
  | outside => exact ⟨h, by simp⟩
  | known _ _ hb =>
    refine ⟨h, ?_⟩
    rintro t ⟨⟩
    exact h.built _ (Entries.mem_of_get? hb)
  | @reference context _ _ _ _ _ _ _ _ hr =>
    cases hr with
    | @refers uri r s₁ _ hresolved =>
      obtain ⟨hs₁, haims⟩ := hk.resolve hl h hresolved
      obtain ⟨hs₂, hnew⟩ := hs₁.add location context.draft (.reference r) rfl (by
        rintro _ ⟨⟩
        exact haims)
      refine ⟨hs₂, ?_⟩
      rintro t ⟨⟩
      exact hnew
  | object _ _ _ _ hr =>
    obtain ⟨hs', hnew⟩ := hk.object hl h hr
    refine ⟨hs', ?_⟩
    rintro t ⟨⟩
    exact hnew
  | @boolean context b _ _ _ =>
    obtain ⟨hs', hnew⟩ := h.add location context.draft (.boolean b) rfl (by simp)
    refine ⟨hs', ?_⟩
    rintro t ⟨⟩
    exact hnew
  | refused => exact ⟨h.alike (idle_record ..).alike, by simp⟩

theorem recording_loadNode (first steps : Nat) : Recording first (loadNode steps) := by
  induction steps with
  | zero =>
    intro location value hops s s' found _ hr
    cases (runs_throw.mp hr).1
  | succ steps ih => exact recording_loadWith ih (framed_loadNode steps)

end Loading
end SchemaAtlas
