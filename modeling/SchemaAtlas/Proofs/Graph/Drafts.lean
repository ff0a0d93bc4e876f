import SchemaAtlas.Proofs.Graph.Sharing
import SchemaAtlas.Proofs.Loading.Catalogued
import SchemaAtlas.Proofs.Lookup.Navigated

/-!
# The drafts of nodes

Every document is read in drafts of its own, also while it is being read because of a reference
in another document. So the documents that a load is inside of are kept on a stack, and a node
is made in the drafts of the document on top. The invariant is that each of these documents is
a loaded one, opened as the policy opens it, and that what is read on top of the stack stands
in the document there; `dating_loadNode` says that reading keeps it. `Request.dated_of_run`
says it for all nodes that the schema given by a fresh load reaches.
-/

namespace SchemaAtlas

/-! ## What is looked up stays in its document -/

namespace Lookup

variable {keys : List String} {location : Location} {value : Json} {place : Location × Json}

theorem Lies.document (h : Lies keys place location value) :
    place.1.document = location.document := by
  induction h with
  | here => rfl
  | member _ _ ih => rw [ih, Location.child_document, rescope_document]
  | element _ _ ih => rw [ih, Location.childIndex, Location.child_document]

theorem document_of_findIdentified {target uri : Uri}
    (h : findIdentified keys target (.ofDocument uri) value = some place) :
    place.1.document = uri.normalized := by
  rw [findIdentified_eq_find? rfl] at h
  exact (mem_located.mp (List.mem_of_find?_eq_some h)).document

end Lookup

theorem OpenDocument.document_of_locate {document : OpenDocument} {uri : Uri}
    {place : Location × Json} (h : document.locate uri = some place) :
    place.1.document = document.uri.normalized := by
  unfold locate Lookup.locate at h
  dsimp only at h
  split at h
  · split at h
    · cases h
      rfl
    · exact Lookup.document_of_navigate h
    · exact Lookup.document_of_findIdentified h
  · split at h
    · rename_i hfound
      cases h
      exact Lookup.document_of_findIdentified hfound
    · split at h
      · split at h
        · rename_i hfound
          rw [Lookup.document_of_navigate h]
          exact Lookup.document_of_findIdentified hfound
        · cases h
      · cases h

/-! ## Kinds of keywords and drafts -/

/-- Whether some key of a kind is known in one of some drafts. -/
def KeywordKind.isIn (kind : KeywordKind) (active : DraftSet) : Bool :=
  (Catalog.draftsOf kind).intersects active

theorem CatalogEntry.kind_isIn {entry : CatalogEntry} {key : String} {active : DraftSet}
    (h : entry ∈ Catalog.applicable key active) : entry.kind.isIn active = true := by
  have hdrafts : ∀ entry ∈ Catalog.entries, ∀ draft ∈ entry.drafts.drafts,
      draft ∈ (Catalog.draftsOf entry.kind).drafts := by
    decide +kernel
  obtain ⟨draft, hd, ha⟩ := List.any_eq_true.mp (List.mem_filter.mp h).2
  exact List.any_eq_true.mpr ⟨draft, hdrafts entry (Digest.mem_applicable h).1 draft hd, ha⟩

/-- A node has keywords of the drafts in use only. -/
theorem Digest.isIn_of_members {load : Loader} {active : DraftSet}
    {object list : List (String × Json)} {location : Location} {draft : Draft} {after : Builder}
    {s s' : Session}
    (h : Runs (members load active object list (.new location draft)) s (.ok after) s') :
    ∀ entry ∈ after.keywords, entry.1.isIn active = true := by
  have hI : Preserves load active fun b => ∀ entry ∈ b.keywords, entry.1.isIn active = true := by
    constructor
    · intro b key site k s s' he _ hb entry hm
      rcases Entries.mem_insert hm with rfl | hold
      · exact CatalogEntry.kind_isIn he
      · exact hb entry hold
    · exact fun key value hb => hb
  exact hI.members (by simp [Builder.new]) h

/-! ## Documents of a session -/

namespace Session

/-- A loaded document, opened as the policy opens it. -/
structure Holds (s : Session) (context : OpenDocument) : Prop where
  uri : context.uri.withoutFragment = context.uri
  loaded : s.documents.loaded? context.uri = some context.document
  opened : s.policy.openAs context.uri context.document = context

/-- A node of a document that the session holds: it has the draft of the document, and keywords
of the drafts in use there. -/
def Dates (s : Session) (t : Schema) : Prop :=
  ∃ context, s.Holds context ∧ t.location.document = context.uri ∧ t.draft = context.draft ∧
    ∀ entry ∈ t.keywords, entry.1.isIn context.active = true

/-- All documents of a session are held, and all nodes from a number on are dated. -/
structure Dated (first : Nat) (s : Session) : Prop where
  stack : ∀ context ∈ s.stack, s.Holds context
  opened : ∀ {uri context}, Entries.get? uri s.opened = some context → s.Holds context
  nodes : ∀ {id t}, first ≤ id → s.store.node? id = some t → s.Dates t

/-- A session that holds the documents that an earlier one does. -/
def Retains (s s' : Session) : Prop := ∀ context, s.Holds context → s'.Holds context

variable {first : Nat} {s s₁ s' : Session} {context : OpenDocument}

theorem Holds.congr (h : s.Holds context) (hp : s'.policy = s.policy)
    (hd : s'.documents = s.documents) : s'.Holds context where
  uri := h.uri
  loaded := by
    rw [hd]
    exact h.loaded
  opened := by
    rw [hp]
    exact h.opened

theorem Retains.trans (h : Retains s s₁) (h' : Retains s₁ s') : Retains s s' :=
  fun context hc => h' context (h context hc)

theorem retains_of_eq (hp : s'.policy = s.policy) (hd : s'.documents = s.documents) :
    Retains s s' := fun _ h => h.congr hp hd

theorem Dates.retained {t : Schema} (h : s.Dates t) (hr : Retains s s') : s'.Dates t := by
  obtain ⟨context, hc, hdated⟩ := h
  exact ⟨context, hr context hc, hdated⟩

/-- The documents that references are looked for in first are held. -/
theorem Dated.nearby (h : s.Dated first) (hc : context ∈ s.nearby) : s.Holds context := by
  apply h.stack
  unfold Session.nearby at hc
  split at hc
  · rename_i current first hcurrent hfirst
    split at hc
    · rw [List.mem_singleton.mp hc]
      exact List.mem_of_mem_head? hcurrent
    · rcases List.mem_pair.mp hc with rfl | rfl
      · exact List.mem_of_mem_head? hcurrent
      · exact List.mem_of_getLast? hfirst
  · cases hc

/-- A step that opens no document and makes no node but dated ones. -/
theorem Dated.step (h : s.Dated first) (hr : Retains s s') (hstack : s'.stack = s.stack)
    (hopened : s'.opened = s.opened)
    (hn : ∀ {id t}, s'.store.node? id = some t → s.store.node? id = some t ∨ s'.Dates t) :
    s'.Dated first where
  stack := by
    rw [hstack]
    exact fun context hc => hr context (h.stack context hc)
  opened := by
    rw [hopened]
    exact fun hc => hr _ (h.opened hc)
  nodes := by
    intro id t hid ht
    rcases hn ht with hold | hnew
    · exact (h.nodes hid hold).retained hr
    · exact hnew

theorem Dated.record (h : s.Dated first) (severity : Severity) (kind : IssueKind)
    (document : Uri) (path : Pointer) (message : String) :
    (s.record severity kind document path message).Dated first :=
  h.step (retains_of_eq rfl rfl) rfl rfl Or.inl

theorem Dated.push (h : s.Dated first) (hc : s.Holds context) : (s.push context).Dated first where
  stack := by
    intro other ho
    rcases List.mem_cons.mp ho with rfl | ho
    · exact hc.congr rfl rfl
    · exact (h.stack other ho).congr rfl rfl
  opened := fun hc => (h.opened hc).congr rfl rfl
  nodes := fun hid ht => (h.nodes hid ht).retained (retains_of_eq rfl rfl)

theorem Dated.pop (h : s.Dated first) : s.pop.Dated first where
  stack := fun other ho => (h.stack other (List.mem_of_mem_tail ho)).congr rfl rfl
  opened := fun hc => (h.opened hc).congr rfl rfl
  nodes := fun hid ht => (h.nodes hid ht).retained (retains_of_eq rfl rfl)

/-- Making a node without keywords in a document that is held. -/
theorem Dated.add (h : s.Dated first) (hc : s.Holds context) {location : Location}
    {body : Body Schema} (hl : location.document = context.uri)
    (hb : (s.store.add location context.draft body).1.keywords = []) :
    Session.Dated first { s with store := (s.store.add location context.draft body).2 } := by
  refine h.step (retains_of_eq rfl rfl) rfl rfl ?_
  intro id t ht
  rcases Store.node?_add_cases ht with hold | ⟨rfl, _⟩
  · exact Or.inl hold
  · refine Or.inr ⟨context, hc.congr rfl rfl, hl, rfl, ?_⟩
    rw [hb]
    exact fun entry he => nomatch he

theorem Dated.enter (h : s.Dated first) (uris : List Uri) : (s.enter uris).Dated first := by
  refine h.step (retains_of_eq rfl rfl) rfl rfl ?_
  intro id t ht
  exact Or.inl ((Store.node?_reserve _ _).symm.trans ht)

/-- Finishing a node that is dated. -/
theorem Dated.leave (h : s.Dated first) {uris : List Uri} {N : Schema} (hN : s.Dates N)
    (hlt : N.id < s.store.nodes.size) : (s.leave N uris).Dated first := by
  have hretains : Retains s (s.leave N uris) := retains_of_eq rfl rfl
  refine h.step hretains rfl rfl ?_
  intro id t ht
  by_cases heq : id = N.id
  · subst heq
    have hstored : (s.leave N uris).store.node? N.id = some N := Store.node?_complete _ N hlt
    cases hstored.symm.trans ht
    exact Or.inr (hN.retained hretains)
  · exact Or.inl ((Store.node?_complete_of_ne _ heq).symm.trans ht)

/-- Opening a document that is loaded. -/
theorem Dated.openDocument (h : s.Dated first) {uri : Uri} {document : Json}
    (huri : uri.withoutFragment = uri) (hloaded : s.documents.loaded? uri = some document)
    (hnew : Entries.get? uri s.opened = none) :
    (s.openDocument uri document).2.Dated first ∧ Retains s (s.openDocument uri document).2 := by
  have hidle := openDocument_idle s uri document
  have hdocuments := documents_openDocument s uri document
  have hopened : (s.openDocument uri document).2.opened =
      Entries.put uri (s.policy.openAs uri document) s.opened := by
    simp only [Session.openDocument, hnew, Policy.openAs]
    split <;> rfl
  have hretains : Retains s (s.openDocument uri document).2 :=
    retains_of_eq (by rw [hidle]) hdocuments
  have hstack : (s.openDocument uri document).2.stack = s.stack := by rw [hidle]
  have hstore : (s.openDocument uri document).2.store = s.store := by rw [hidle]
  refine ⟨⟨?_, ?_, ?_⟩, hretains⟩
  · rw [hstack]
    exact fun context hc => hretains context (h.stack context hc)
  · intro other context hc
    rw [hopened, Entries.get?_put] at hc
    split at hc
    · cases hc
      exact hretains _ ⟨huri, hloaded, rfl⟩
    · exact hretains context (h.opened hc)
  · rw [hstore]
    exact fun hid ht => (h.nodes hid ht).retained hretains

/-- Fetching a document that is not loaded yet. -/
theorem Dated.fetch (h : s.Dated first) {uri : Uri} {document : Json} {documents : Documents}
    (hnone : s.documents.loaded? uri = none)
    (hf : s.documents.fetch? uri = some (document, documents)) :
    Session.Dated first { s with documents } ∧ Retains s { s with documents } ∧
      documents.loaded? uri = some document := by
  obtain ⟨found, _, heq⟩ := Option.map_eq_some_iff.mp hf
  obtain ⟨rfl, rfl⟩ := Prod.mk.inj heq
  have hretains : Retains s { s with documents := s.documents.register uri found } := by
    intro context hc
    refine ⟨hc.uri, ?_, hc.opened⟩
    rw [Documents.loaded?_register]
    split
    · rename_i hsame
      have hloaded := hc.loaded
      rw [Documents.loaded?, hsame] at hloaded
      rw [Documents.loaded?, hloaded] at hnone
      cases hnone
    · exact hc.loaded
  refine ⟨h.step hretains rfl rfl Or.inl, hretains, ?_⟩
  rw [Documents.loaded?_register, if_pos rfl]

theorem Dated.opens (h : s.Dated first) {uri : Uri} (huri : uri.withoutFragment = uri)
    (ho : Opens uri s context s') :
    s'.Dated first ∧ Retains s s' ∧ s'.Holds context := by
  have hheld : ∀ {s s' : Session}, Entries.get? uri s'.opened = some context →
      s'.Dated first → Retains s s' → s'.Dated first ∧ Retains s s' ∧ s'.Holds context :=
    fun hget hs hr => ⟨hs, hr, hs.opened hget⟩
  cases ho with
  | again hget => exact ⟨h, fun _ => id, h.opened hget⟩
  | @loaded document hnew hloaded =>
    obtain ⟨hs, hr⟩ := h.openDocument huri hloaded hnew
    refine hheld ?_ hs hr
    simp [Session.openDocument, hnew, Entries.get?_put]
  | @fetched document documents hnew hnone hf =>
    obtain ⟨hs₁, hr₁, hloaded⟩ := h.fetch hnone hf
    obtain ⟨hs₂, hr₂⟩ := hs₁.openDocument huri hloaded hnew
    refine hheld ?_ hs₂ (hr₁.trans hr₂)
    simp [Session.openDocument, hnew, Entries.get?_put]

end Session

/-! ## Reading keeps nodes dated -/

namespace Loading

open LoadM Session

/-- A loader that keeps sessions dated when it reads a value of the document on top. -/
def Dating (first : Nat) (load : NodeLoader) : Prop :=
  ∀ {context : OpenDocument} {location : Location} {value : Json} {hops : Nat}
    {s s' : Session} {found : Option Schema}, s.Dated first → s.current? = some context →
    location.document = context.uri → Runs (load location value hops) s (.ok found) s' →
    s'.Dated first ∧ Retains s s'

variable {first : Nat} {load : NodeLoader} {context : OpenDocument} {s s' : Session} {uri : Uri}
variable {hops : Nat}

theorem holds_of_current? (h : s.Dated first) (hc : s.current? = some context) :
    s.Holds context :=
  h.stack context (List.mem_of_mem_head? hc)

theorem Dating.visits (hk : Dating first load) (hl : Framed load)
    {asked : Location → Json → Prop} {nodes : List Schema} (h : s.Dated first)
    (hc : s.current? = some context)
    (ha : ∀ location value, asked location value → location.document = context.uri)
    (hv : Digest.Visits (nestedLoad load) context.draft asked s nodes s') :
    s'.Dated first ∧ Retains s s' := by
  induction hv with
  | start => exact ⟨h, fun _ => id⟩
  | issue severity kind location message _ _ ih =>
    exact ⟨ih.1.record .., ih.2.trans (retains_of_eq rfl rfl)⟩
  | @boolean s₁ nodes location b hv hasked ih =>
    obtain ⟨hs₁, hr⟩ := ih
    have hcurrent : s₁.current? = some context := (hl.visits hv).1.current?.trans hc
    refine ⟨hs₁.add (holds_of_current? hs₁ hcurrent) (ha _ _ hasked) rfl, ?_⟩
    exact hr.trans (retains_of_eq rfl rfl)
  | @load s₁ s₂ nodes location value found hv hasked hr ih =>
    obtain ⟨hs₁, hr₁⟩ := ih
    have hcurrent : s₁.current? = some context := (hl.visits hv).1.current?.trans hc
    obtain ⟨hs₂, hr₂⟩ := hk hs₁ hcurrent (ha _ _ hasked) hr
    exact ⟨hs₂, hr₁.trans hr₂⟩

/-- Reading what a URI names in a document, inside of that document. -/
theorem Dating.target (hk : Dating first load) {found : Option Schema} (h : s.Dated first)
    (hd : s.Holds context) (hr : Runs (buildTarget load context uri hops) s (.ok found) s') :
    s'.Dated first ∧ Retains s s' := by
  unfold buildTarget at hr
  dsimp only at hr
  split at hr
  · rename_i location value hlocate
    obtain ⟨s₁, hload, rfl⟩ := runs_between.mp hr
    have hdocument : location.document = context.uri := by
      have hroot := @OpenDocument.document_of_locate context _ _ hlocate
      rwa [Uri.normalized_of_fragment_ne (by rw [← hd.uri]; simp)] at hroot
    obtain ⟨hs₁, hretains⟩ := hk (h.push hd) rfl hdocument hload
    refine ⟨hs₁.pop, fun other ho => ?_⟩
    exact (hretains other (ho.congr rfl rfl)).congr rfl rfl
  · obtain ⟨_, rfl⟩ := runs_pure.mp hr
    exact ⟨h, fun _ => id⟩

theorem Dating.inFirst (hk : Dating first load) {documents : List OpenDocument}
    {found : Option Schema} (h : s.Dated first) (hd : ∀ document ∈ documents, s.Holds document)
    (hr : Runs (buildInFirst load uri hops documents) s (.ok found) s') :
    s'.Dated first ∧ Retains s s' := by
  induction documents generalizing s with
  | nil =>
    obtain ⟨_, rfl⟩ := runs_pure.mp hr
    exact ⟨h, fun _ => id⟩
  | cons document rest ih =>
    unfold buildInFirst at hr
    obtain ⟨tried, s₁, hb, hr⟩ := runs_bind_ok.mp hr
    obtain ⟨hs₁, hr₁⟩ := hk.target h (hd document List.mem_cons_self) hb
    cases tried with
    | some schema =>
      obtain ⟨_, rfl⟩ := runs_pure.mp hr
      exact ⟨hs₁, hr₁⟩
    | none =>
      obtain ⟨hs₂, hr₂⟩ := ih hs₁ (fun other ho => hr₁ other (hd other (List.mem_cons_of_mem _ ho))) hr
      exact ⟨hs₂, hr₁.trans hr₂⟩

theorem Dating.chase (hk : Dating first load) {origin : Location} {target : Schema}
    (h : s.Dated first) (hr : Runs (chase load origin uri hops) s (.ok target) s') :
    s'.Dated first ∧ Retains s s' := by
  unfold Loading.chase at hr
  rw [runs_get_bind] at hr
  obtain ⟨tried, s₁, hb, hr⟩ := runs_bind_ok.mp hr
  obtain ⟨hs₁, hr₁⟩ := hk.inFirst h (fun document hd => h.nearby hd) hb
  cases tried with
  | some schema =>
    obtain ⟨_, rfl⟩ := runs_pure.mp hr
    exact ⟨hs₁, hr₁⟩
  | none =>
    dsimp only at hr
    split at hr
    · cases (runs_fatal.mp hr).1
    · obtain ⟨document, s₂, ho, hr⟩ := runs_bind_ok.mp hr
      rw [runs_modifyGet_bind] at hr
      -- the document of the URI is opened before anything is looked up in it
      obtain ⟨hs₂, hr₂, hheld⟩ := hs₁.opens (Uri.withoutFragment_idem _) (opens_of_obtain ho)
      obtain ⟨tried, s₃, hb, hr⟩ := runs_bind_ok.mp hr
      obtain ⟨hs₃, hr₃⟩ := hk.target hs₂ hheld hb
      cases tried with
      | some schema =>
        obtain ⟨_, rfl⟩ := runs_pure.mp hr
        exact ⟨hs₃, (hr₁.trans hr₂).trans hr₃⟩
      | none => cases (runs_fatal.mp hr).1

theorem Dating.resolve (hk : Dating first load) {location : Location} {written : String}
    {reference : Reference} (h : s.Dated first)
    (hr : Runs (resolve load location written uri hops) s (.ok reference) s') :
    s'.Dated first ∧ Retains s s' := by
  unfold Loading.resolve at hr
  rw [runs_get_bind] at hr
  split at hr
  · obtain ⟨_, rfl⟩ := runs_pure.mp hr
    exact ⟨h, fun _ => id⟩
  · obtain ⟨_, rfl⟩ := runs_pure.mp hr
    exact ⟨h, fun _ => id⟩
  · split at hr
    · cases (runs_fatal.mp hr).1
    · split at hr
      · cases (runs_fatal.mp hr).1
      · obtain ⟨target, s₁, hb, hr⟩ := runs_bind_ok.mp hr
        rw [runs_modify_bind] at hr
        obtain ⟨_, rfl⟩ := runs_pure.mp hr
        obtain ⟨s₂, hchase, rfl⟩ := runs_between.mp hb
        have hbegun : (s.beginResolving uri).Dated first :=
          h.step (retains_of_eq rfl rfl) rfl rfl Or.inl
        obtain ⟨hs₂, hretains⟩ := hk.chase hbegun hchase
        refine ⟨hs₂.step (retains_of_eq rfl rfl) rfl rfl Or.inl, fun other ho => ?_⟩
        exact (hretains other (ho.congr rfl rfl)).congr rfl rfl

theorem Dating.object (hk : Dating first load) (hl : Framed load) {location : Location}
    {object : List (String × Json)} {N : Schema} (h : s.Dated first)
    (hc : s.current? = some context) (hdocument : location.document = context.uri)
    (hr : ObjectRun load context location object s (.ok N) s') :
    s'.Dated first ∧ Retains s s' := by
  cases hr with
  | @finished inner declared builder s₁ s₂ hid hread =>
    have hidle := hid.idle
    have hs₁ : s₁.Dated first ∧ Retains s s₁ := by
      cases hid with
      | anonymous => exact ⟨h, fun _ => id⟩
      | declared => exact ⟨h, fun _ => id⟩
      | repeated => exact ⟨h.record .., retains_of_eq rfl rfl⟩
      | broken => exact ⟨h.record .., retains_of_eq rfl rfl⟩
    have hinner : inner.document = context.uri :=
      (congrArg Prod.fst hid.place).trans hdocument
    obtain ⟨nodes, hvisits, _, _⟩ := (keywordsRun_gathers load context inner object).ok hread
    have hcurrent : (s₁.enter (location.pointerUri :: location.uri :: declared)).current? =
        some context := by
      rw [hidle]
      exact hc
    obtain ⟨hs₂, hr₂⟩ := hk.visits hl (hs₁.1.enter _) hcurrent (fun l v hasked => by
      obtain ⟨_, _, _, hplace | ⟨_, _, _, _, hl⟩ | ⟨_, _, _, _, hl⟩⟩ := Digest.nested_cases hasked
      · rw [(Prod.mk.inj hplace).1]
        exact hinner
      · exact (congrArg Location.document hl).trans hinner
      · exact (congrArg Location.document hl).trans hinner) hvisits
    have hframe := (hl.visits hvisits).1
    have hbody := keywordsRun_body hread
    have hheld : s₂.Holds context :=
      holds_of_current? hs₂ (hframe.current?.trans hcurrent)
    have hdates : s₂.Dates (.node s₁.store.nodes.size inner context.draft builder.body) := by
      refine ⟨context, hheld, hinner, rfl, ?_⟩
      have hkeywords : Schema.keywords (.node s₁.store.nodes.size inner context.draft
          builder.body) = builder.keywords := by
        simp [Schema.keywords, Schema.body, hbody]
      rw [hkeywords]
      exact Digest.isIn_of_members hread
    refine ⟨hs₂.leave hdates hframe.promised.1, fun other ho => ?_⟩
    exact (hr₂ other ((hs₁.2 other ho).congr rfl rfl)).congr rfl rfl

theorem Dating.reference (hk : Dating first load) {location : Location} {written : String}
    {N : Schema} (h : s.Dated first) (hl : Framed load) (hc : s.current? = some context)
    (hdocument : location.document = context.uri)
    (hr : Runs (loadReference load context.draft location written hops) s (.ok N) s') :
    s'.Dated first ∧ Retains s s' := by
  unfold loadReference at hr
  split at hr
  · cases (runs_fatal.mp hr).1
  · obtain ⟨reference, s₁, hresolve, hr⟩ := runs_bind_ok.mp hr
    obtain ⟨_, rfl⟩ := runs_onStore.mp hr
    obtain ⟨hs₁, hretains⟩ := hk.resolve h hresolve
    have hcurrent := (hl.resolve (resolveRun_of_runs hresolve)).1.current?.trans hc
    refine ⟨hs₁.add (holds_of_current? hs₁ hcurrent) hdocument rfl, ?_⟩
    exact hretains.trans (retains_of_eq rfl rfl)

theorem dating_loadWith (hk : Dating first load) (hl : Framed load) :
    Dating first (loadWith load) := by
  intro context location value hops s s' found h hc hdocument hr
  unfold loadWith at hr
  rw [runs_get_bind] at hr
  simp only [hc] at hr
  split at hr
  · rw [runs_get_bind] at hr
    split at hr
    · obtain ⟨_, rfl⟩ := runs_pure.mp hr
      exact ⟨h, fun _ => id⟩
    · obtain ⟨N, s₁, hreference, hr⟩ := runs_bind_ok.mp hr
      obtain ⟨_, rfl⟩ := runs_pure.mp hr
      exact hk.reference h hl hc hdocument hreference
    · cases (runs_fatal.mp hr).1
    · obtain ⟨N, s₁, hobject, hr⟩ := runs_bind_ok.mp hr
      obtain ⟨_, rfl⟩ := runs_pure.mp hr
      exact hk.object hl h hc hdocument (objectRun_of_runs hobject)
  · split at hr
    · obtain ⟨_, s₁, hadd, hr⟩ := runs_bind_ok.mp hr
      obtain ⟨_, rfl⟩ := runs_pure.mp hr
      obtain ⟨_, rfl⟩ := runs_onStore.mp hadd
      exact ⟨h.add (holds_of_current? h hc) hdocument rfl, retains_of_eq rfl rfl⟩
    · obtain ⟨_, s₁, hissue, hr⟩ := runs_bind_ok.mp hr
      obtain ⟨_, rfl⟩ := runs_pure.mp hr
      obtain ⟨_, rfl⟩ := runs_malformed.mp hissue
      exact ⟨h.record .., retains_of_eq rfl rfl⟩
  · obtain ⟨_, s₁, hissue, hr⟩ := runs_bind_ok.mp hr
    obtain ⟨_, rfl⟩ := runs_pure.mp hr
    obtain ⟨_, rfl⟩ := runs_malformed.mp hissue
    exact ⟨h.record .., retains_of_eq rfl rfl⟩

theorem dating_loadNode (first steps : Nat) : Dating first (loadNode steps) := by
  induction steps with
  | zero =>
    intro context location value hops s s' found _ _ _ hr
    cases (runs_throw.mp hr).1
  | succ steps ih => exact dating_loadWith ih (framed_loadNode steps)

end Loading

/-! ## Requests -/

namespace Load

variable {l : Load}

/-- A load begins with its document as the only one that it is inside of. -/
theorem dated_session (huri : l.documentUri.withoutFragment = l.documentUri)
    (hloaded : l.workspace.documents.loaded? l.documentUri = some l.document) :
    l.session.Dated l.first := by
  have hnew : Session.Dated l.first (Session.new l.policy l.workspace.cache
      l.workspace.documents l.workspace.store) := by
    refine ⟨by simp [Session.new], by simp [Session.new], ?_⟩
    intro id t hid ht
    change l.workspace.store.node? id = some t at ht
    rw [Store.node?_of_size_le hid] at ht
    cases ht
  obtain ⟨hopened, hheld⟩ := hnew.openDocument huri hloaded rfl
  exact hopened.push (hheld _ ⟨huri, hloaded, rfl⟩)

end Load

namespace Request

/-- The nodes that a fresh load reaches have the draft of their own document, and keywords of
the drafts in use in that document. -/
theorem dated_of_run {policy : Policy} {request : Request} {w w' : Workspace} {s t : Schema}
    (hcache : ∀ uri, w.cache.get? uri = none) (hrun : request.run policy w = (.ok s, w'))
    (ht : w'.store.Reaches s t) :
    ∃ document, w'.documents.loaded? t.location.document = some document ∧
      t.draft = (policy.openAs t.location.document document).draft ∧
      ∀ entry ∈ t.keywords, ∃ draft,
        (policy.openAs t.location.document document).active.contains draft = true ∧
          (Catalog.draftsOf entry.1).contains draft = true := by
  cases hl : request.load? policy w with
  | none =>
    obtain ⟨r, hanswer, heq⟩ := answer_of_load?_none hl
    rw [hrun] at heq
    cases heq
    cases hanswer with
    | cached hc =>
      rw [hcache] at hc
      cases hc
  | some l =>
    obtain ⟨report, hok, rfl⟩ := run_ok_of_load? hl hrun
    obtain ⟨start, s', hlocate, hread, _, _, heq⟩ := Load.run_ok hok
    obtain ⟨rfl, hsame, _⟩ := load?_workspace hl
    have huri := load?_documentUri hl
    have hdocument : start.1.document = l.context.uri := by
      have hroot := OpenDocument.document_of_locate hlocate
      rwa [Uri.normalized_of_fragment_ne (by rw [Load.context, Policy.openAs, ← huri]; simp)]
        at hroot
    have hrecords := Load.records_session fun uri => (congrArg (Cache.get? uri) hsame).trans (hcache uri)
    obtain ⟨hrecords', hmade⟩ :=
      Loading.recording_loadNode l.first l.workspace.stepLimit hrecords hread
    obtain ⟨hdated, _⟩ := Loading.dating_loadNode l.first l.workspace.stepLimit
      (Load.dated_session huri (load?_loaded hl)) rfl hdocument hread
    have hpolicy := (Loading.framed_loadNode l.workspace.stepLimit).frame hread
    rw [heq] at ht ⊢
    have hnode := (hmade s rfl).reaches hrecords' ht
    obtain ⟨context, hheld, hlocation, hdraft, hkinds⟩ := hdated.nodes hnode.first hnode.stored
    have hopened : l.policy.openAs context.uri context.document = context := by
      have h := hheld.opened
      rwa [hpolicy.policy, l.session_eq] at h
    refine ⟨context.document, ?_, ?_, ?_⟩
    · rw [hlocation]
      exact hheld.loaded
    · rw [hlocation, hopened]
      exact hdraft
    · intro entry he
      rw [hlocation, hopened]
      obtain ⟨draft, hd, ha⟩ := List.any_eq_true.mp (hkinds entry he)
      exact ⟨draft, ha, by simpa [DraftSet.contains] using hd⟩

/-- A schema of the fourth draft that refers to another document before its last keyword. -/
def foreign : Request :=
  .named ⟨"http", some "e.com", .segments ["a.json"], none, none⟩
    (.object [("$schema", .string "json-schema.org/draft-04/schema"),
      ("items", .object [("$ref", .string "b.json")]), ("title", .string "A")])

/-- The other document, which is one of the sixth draft and refers back. -/
def foreignDocuments : Documents :=
  .ofList [(⟨"http", some "e.com", .segments ["b.json"], none, none⟩,
    .object [("$schema", .string "json-schema.org/draft-06/schema"),
      ("contains", .object [("$ref", .string "a.json")]), ("title", .string "B")])]

theorem dated_of_foreign : ∃ s w' t,
    foreign.run .standard ⟨foreignDocuments, .empty, .empty⟩ = (.ok s, w') ∧
    w'.store.Reaches s t ∧ s.draft = .draft4 ∧ t.draft = .draft6 ∧
    ∃ document, w'.documents.loaded? t.location.document = some document ∧
      t.draft = (Policy.openAs .standard t.location.document document).draft ∧
      ∀ entry ∈ t.keywords, ∃ draft,
        (Policy.openAs .standard t.location.document document).active.contains draft = true ∧
          (Catalog.draftsOf entry.1).contains draft = true := by
  have hcheck : ((foreign.run .standard ⟨foreignDocuments, .empty, .empty⟩).1.toOption.any
      fun s =>
        let store := (foreign.run .standard ⟨foreignDocuments, .empty, .empty⟩).2.store
        s.draft = .draft4 && (store.next s).any fun r =>
          (store.next r).any fun t => t.draft = .draft6) = true := by
    decide +kernel
  cases hr : foreign.run .standard ⟨foreignDocuments, .empty, .empty⟩ with
  | mk answer w' =>
    rw [hr] at hcheck
    cases answer with
    | error failure => cases hcheck
    | ok s =>
      simp only [Except.toOption, Option.any_some, Bool.and_eq_true, decide_eq_true_eq,
        List.any_eq_true] at hcheck
      obtain ⟨hs, r, hnext, t, hnext', ht⟩ := hcheck
      have hreaches : w'.store.Reaches s t :=
        .tail (.single (Store.mem_next.mp hnext)) (Store.mem_next.mp hnext')
      exact ⟨s, w', t, rfl, hreaches, hs, ht, dated_of_run (fun _ => rfl) hr hreaches⟩

end Request
end SchemaAtlas
