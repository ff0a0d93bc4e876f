import SchemaAtlas.Proofs.Graph.Settled
import SchemaAtlas.Proofs.Loading.Request
import SchemaAtlas.Proofs.Lookup.Places
import SchemaAtlas.Proofs.Render.Silent

/-!
# A document, loaded and written again

A document without references that loads in one draft without a report is written in this draft
as its normal form. Every node is read at one place of the document, or found among the finished
nodes of the session; that these are not mixed up is what `Location.Tidy` is for: a location
without a path in its scope answers to no pointer but its own. The invariant of the session is
that a finished node which answers to a pointer copies the value at its path.
-/

namespace SchemaAtlas

/-! ## Documents -/

namespace Json

/-- What a document in memory keeps to besides: the keys of an object are in order. -/
def isOrdered : Json → Bool
  | .object members => decide (Entries.Sorted members)
  | _ => true

/-- The values of a document that are read as schemas in a draft. -/
inductive Schemas (draft : Draft) (document : Json) : Json → Prop
  | root : Schemas draft document document
  | nested {members : List (String × Json)} {location : Location} {place : Location × Json} :
      Schemas draft document (.object members) →
      place ∈ Digest.nested (.only draft) location members → Schemas draft document place.2

/-- A schema that is no reference, whose identifier has no pointer for a fragment, and which has
neither an empty list of types nor a count of more than 64 bits. -/
structure Plain (draft : Draft) (value : Json) : Prop where
  reference : value.member? "$ref" = none
  identifier : ∀ {id}, value.member? draft.idKey = some (.string id) →
    ∀ base uri fragment, Uri.join base id = .ok uri → uri.fragment = some fragment →
      fragment.front ≠ '/'
  members : ∀ key entry, value.member? key = some entry →
    entry.isPlain (Catalog.reading? draft key entry)

/-- A schema without a reference and an identifier is plain if its members are. -/
theorem plain_of_anonymous {draft : Draft} {members : List (String × Json)}
    (href : Entries.get? "$ref" members = none) (hid : Entries.get? draft.idKey members = none)
    (hm : ∀ member ∈ members, member.2.isPlain (Catalog.reading? draft member.1 member.2)) :
    (Json.object members).Plain draft where
  reference := href
  identifier := by
    intro id h
    cases hid.symm.trans h
  members := fun key entry h => hm (key, entry) (Entries.mem_of_get? h)

end Json

/-! ## Locations that answer to their own pointer only -/

namespace Location

/-- The scope is that of the document or another document, or is named by a plain fragment. -/
structure Tidy (d : Uri) (l : Location) : Prop where
  document : l.document = d
  scope : l.scope.fragment = none ∧ (l.scopePath = l.path ∨ l.scope.withoutFragment ≠ d) ∨
    ∃ fragment, l.scope.fragment = some fragment ∧ fragment ≠ "" ∧ fragment.front ≠ '/'

variable {d : Uri} {l : Location} {p : Pointer}

theorem Tidy.walk (h : Tidy d l) (more : List String) : Tidy d (l.walk more) where
  document := h.document
  scope := by
    refine h.scope.imp_left fun hplain => ⟨hplain.1, hplain.2.imp_left fun heq => ?_⟩
    simp [Location.walk, heq]

theorem tidy_ofDocument (hd : d.withoutFragment = d) : Tidy d (ofDocument d) := by
  have hnone : d.fragment = none := by
    rw [← hd]
    rfl
  have hnormal : d.normalized = d := Uri.normalized_of_fragment_ne (by simp [hnone])
  refine ⟨hnormal, Or.inl ⟨?_, Or.inl rfl⟩⟩
  exact (congrArg Uri.fragment hnormal).trans hnone

/-- A pointer that a location answers to is its own. -/
theorem Tidy.path_eq (h : Tidy d l) (hd : d.withoutFragment = d) (huri : l.uri = withPath d p) :
    p = l.path := by
  rcases h.scope with ⟨hnone, hscope⟩ | ⟨fragment, hsome, hne, hfront⟩
  · simp only [Location.uri, hnone] at huri
    rcases hscope with hpath | hother
    · have hplace := Uri.place?_withPath l.scope l.scopePath
      rw [huri, Uri.place?_withPath] at hplace
      rw [← hpath]
      obtain ⟨segments⟩ := p
      cases Option.some.inj hplace
      rfl
    · have hwithout := congrArg Uri.withoutFragment huri
      rw [withoutFragment_withPath, withoutFragment_withPath, hd] at hwithout
      exact absurd hwithout hother
  · have hempty : fragment.isEmpty = false := by simpa using hne
    simp only [Location.uri, hsome, hempty, hfront, if_false, Bool.false_eq_true] at huri
    split at huri
    · exact absurd (front_of_withPath (huri ▸ hsome)) hfront
    · rw [pointerUri, h.document] at huri
      exact (withPath_injective huri).symm

/-- The URI of a node that has declared a scope without fragment. -/
theorem withId_uri {inner : Location} {id : String} (h : l.withId id = .ok inner)
    (hnone : inner.scope.fragment = none) : inner.uri = inner.scope.withoutFragment := by
  rw [Location.uri, hnone, (withId_path h).2.2]
  rfl

theorem withId_scope {inner : Location} {id : String} (h : l.withId id = .ok inner) :
    ∃ uri, l.scope.join id = .ok uri ∧ inner.scope = uri.normalized := by
  unfold Location.withId resolve at h
  cases hj : l.scope.join id with
  | error fault =>
    rw [hj] at h
    cases h
  | ok uri =>
    rw [hj] at h
    cases h
    exact ⟨uri, rfl, rfl⟩

/-- An identifier names another document, but at the root, where it may name its own. -/
theorem Tidy.withId (h : Tidy d l) {inner : Location} {id : String} (hid : l.withId id = .ok inner)
    (hfragment : ∀ base uri fragment, Uri.join base id = .ok uri → uri.fragment = some fragment →
      fragment.front ≠ '/')
    (hother : l.path.isRoot ∨ inner.uri ≠ d) : Tidy d inner := by
  obtain ⟨hdocument, hpath, hroot⟩ := withId_path hid
  obtain ⟨uri, hjoin, hscope⟩ := withId_scope hid
  refine ⟨hdocument.trans h.document, ?_⟩
  cases hf : uri.normalized.fragment with
  | none =>
    rw [← hscope] at hf
    refine Or.inl ⟨hf, hother.imp (fun hl => ?_) fun hne => withId_uri hid hf ▸ hne⟩
    rw [hroot, hpath, Pointer.root, ← List.isEmpty_iff.mp hl]
  | some fragment =>
    have hne : fragment ≠ "" := by
      rintro rfl
      exact Uri.normalized_fragment_ne uri hf
    refine Or.inr ⟨fragment, hscope ▸ hf, hne, hfragment l.scope uri fragment hjoin ?_⟩
    rw [Uri.normalized] at hf
    split at hf
    · cases hf
    · exact hf

end Location

/-! ## The session -/

namespace Session

/-- The finished nodes that answer to a pointer copy the value at its path. -/
structure Copying (context : OpenDocument) (s : Session) : Prop where
  current? : s.current? = some context
  numbered : s.Numbered
  built : ∀ {path value t}, (Location.withPath context.uri ⟨path⟩, t) ∈ s.built →
    context.document.at? path = some value → t.Copies context.draft value

variable {context : OpenDocument} {s s' : Session}

theorem Copying.add (h : s.Copying context) (location : Location) (draft : Draft)
    (body : Body Schema) :
    Copying context { s with store := (s.store.add location draft body).2 } where
  current? := h.current?
  numbered := (frame_add s location draft body).numbered h.numbered
  built := h.built

theorem Copying.enter (h : s.Copying context) (uris : List Uri) :
    (s.enter uris).Copying context where
  current? := h.current?
  numbered := h.numbered.enter uris
  built := h.built

/-- Finishing a node that copies the value at every pointer that it answers to. -/
theorem Copying.leave (h : s.Copying context) {uris : List Uri} {t : Schema}
    (hf : Frame (s.enter uris) s') (h' : s'.Copying context) (hid : t.id = s.store.nodes.size)
    (ht : ∀ {path value}, Location.withPath context.uri ⟨path⟩ ∈ uris →
      context.document.at? path = some value → t.Copies context.draft value) :
    (s'.leave t uris).Copying context where
  current? := (hf.leave hid).current?.trans h.current?
  numbered := (hf.leave hid).numbered h.numbered
  built := by
    intro path value known hm hat
    rcases Account.mem_finish hm with hm | ⟨rfl, hu⟩
    · exact h'.built hm hat
    · exact ht hu hat

/-- What is registered is in progress. -/
theorem contains_enter {uris : List Uri} {uri : Uri}
    (h : uri ∈ uris ∨ Entries.contains uri s.inProgress = true) :
    Entries.contains uri (s.enter uris).inProgress = true :=
  Entries.contains_putNew _ h

end Session

/-! ## Nodes -/

/-- A document that one draft is used for, and that may be written as it was read. -/
structure OpenDocument.Regular (context : OpenDocument) : Prop where
  active : context.active = .only context.draft
  uri : context.uri.withoutFragment = context.uri
  stored : context.document.all Json.isStored = true
  ordered : context.document.all Json.isOrdered = true
  plain : ∀ value, Json.Schemas context.draft context.document value →
    value.Plain context.draft

/-- A value of the document that is read as a schema, at a location that is its own. -/
structure OpenDocument.Stands (context : OpenDocument) (location : Location) (value : Json) :
    Prop where
  tidy : Location.Tidy context.uri location
  at? : context.document.at? location.path.segments = some value
  schema : Json.Schemas context.draft context.document value

namespace Loading

open LoadM Session Digest

variable {context : OpenDocument} {load : NodeLoader}

/-- A loader that copies the values of a document when it reports nothing. -/
def Faithful (context : OpenDocument) (load : NodeLoader) : Prop :=
  ∀ {location : Location} {value : Json} {hops : Nat} {s s' : Session} {found : Option Schema},
    s.Copying context →
    (location.path.isRoot = true ∨ Entries.contains context.uri s.inProgress = true) →
    context.Stands location value → Runs (load location value hops) s (.ok found) s' →
    s'.report = s.report → s'.Copying context ∧ Finds context.draft value found

/-- The values nested in a schema stand at locations of their own. -/
theorem stands_nested (hc : context.Regular) {inner : Location}
    {object : List (String × Json)} (h : context.Stands inner (.object object))
    {place : Location × Json}
    (hp : place ∈ nested (.only context.draft) inner object) :
    context.Stands place.1 place.2 := by
  obtain ⟨more, hlocation, hmore⟩ := nested_walk (Lookup.all_at? hc.stored h.at?) hp
  refine ⟨hlocation ▸ h.tidy.walk more, ?_, h.schema.nested hp⟩
  rw [hlocation, Location.walk, Json.at?_append, h.at?]
  exact hmore

theorem silent_keywordsRun (hl : Framed load) (hf : Faithful context load)
    (hc : context.Regular) {inner : Location} {object : List (String × Json)}
    (h : context.Stands inner (.object object)) :
    Silent (fun s => s.Copying context ∧ Entries.contains context.uri s.inProgress = true)
      (keywordsRun load context inner object)
      (TakesAll context.draft object object (.new inner context.draft)) := by
  have hload : ∀ location value, (location, value) ∈ nested (.only context.draft) inner object →
      Silent (fun s => s.Copying context ∧ Entries.contains context.uri s.inProgress = true)
        (nestedLoad load location value) (Finds context.draft value) := by
    intro location value hp
    refine ⟨fun hr => (hl.frame hr).report, ?_⟩
    rintro s found s' ⟨hs, hknown⟩ hr hreport
    obtain ⟨hs', hfound⟩ := hf hs (Or.inr hknown) (stands_nested hc h hp) hr hreport
    exact ⟨⟨hs', (hl.frame hr).inProgress hs.numbered ▸ hknown⟩, hfound⟩
  rw [keywordsRun, hc.active]
  refine silent_members hload ?_ (fun _ hp => hp) fun key value hm => ?_
  · rintro s location draft body ⟨hs, hknown⟩
    exact ⟨hs.add location draft body, hknown⟩
  · have hkeys : (Entries.keys object).Nodup := by
      simpa [Json.isStored] using Json.all_self (Lookup.all_at? hc.stored h.at?)
    exact (hc.plain _ h.schema).members key value (Entries.get?_of_mem hkeys hm)

/-- An identifier that is applied without a word gives the node no pointer but its own. -/
theorem Identified.silent (hc : context.Regular) {location inner : Location}
    {object : List (String × Json)} {declared : List Uri} {s s₁ : Session}
    (h : context.Stands location (.object object))
    (hroot : location.path.isRoot = true ∨ Entries.contains context.uri s.inProgress = true)
    (hid : Identified context.active.idKeys location object s inner declared s₁)
    (hreport : s₁.report = s.report) :
    s₁ = s ∧ context.Stands inner (.object object) ∧
      ∀ p, Location.withPath context.uri p ∈ location.pointerUri :: location.uri :: declared →
        p = location.path := by
  have hown : ∀ p, Location.withPath context.uri p = location.pointerUri → p = location.path := by
    intro p hp
    rw [Location.pointerUri, h.tidy.document] at hp
    exact Location.withPath_injective hp
  cases hid with
  | anonymous =>
    refine ⟨rfl, h, fun p hp => ?_⟩
    rcases List.mem_cons.mp hp with hp | hp
    · exact hown p hp
    · exact h.tidy.path_eq hc.uri (List.mem_singleton.mp hp).symm
  | @declared id _ hid hw hnew =>
    have hkeys : context.active.idKeys = [context.draft.idKey] := by
      rw [hc.active]
      cases context.draft <;> rfl
    have hkey : (Json.object object).member? context.draft.idKey = some (.string id) := by
      rw [hkeys, Lookup.declaredId?] at hid
      split at hid
      · cases hid
      · rw [List.findSome?_singleton] at hid
        obtain ⟨found, hfound, htext⟩ := Option.bind_eq_some_iff.mp hid
        exact hfound.trans (congrArg some (Json.eq_string htext))
    have htidy : Location.Tidy context.uri inner := by
      refine h.tidy.withId hw ((hc.plain _ h.schema).identifier hkey) (hroot.imp_right ?_)
      intro hknown heq
      rw [Session.knows, heq, hknown] at hnew
      cases hnew
    have hpath := (Location.withId_path hw).2.1
    refine ⟨rfl, ⟨htidy, hpath ▸ h.at?, h.schema⟩, fun p hp => ?_⟩
    rcases List.mem_cons.mp hp with hp | hp
    · exact hown p hp
    · rcases List.mem_cons.mp hp with hp | hp
      · exact h.tidy.path_eq hc.uri hp.symm
      · exact (htidy.path_eq hc.uri (List.mem_singleton.mp hp).symm).trans hpath
  | repeated => exact absurd hreport (record_report_ne _ _ _ _ _ _)
  | broken => exact absurd hreport (record_report_ne _ _ _ _ _ _)

/-- What is made of the members of an object copies it. -/
theorem copies_object {object : List (String × Json)} {inner : Location} {builder : Builder}
    {id : Nat} (ho : (Json.object object).isOrdered = true)
    (hb : builder.body = .object builder.keywords builder.extra)
    (ht : TakesAll context.draft object object (.new inner context.draft) builder) :
    (Schema.node id inner context.draft builder.body).Copies context.draft (.object object) where
  render := by
    have hs : Entries.Sorted object := of_decide_eq_true ho
    rw [Schema.render_eq, Schema.body, hb, Body.map, Schema.renderBody_of_takesAll ht hs]
    rfl
  boolean? := by
    rw [Schema.boolean?, Schema.body, hb]
    rfl

theorem Faithful.object (hl : Framed load) (hf : Faithful context load) (hc : context.Regular)
    {location : Location} {object : List (String × Json)} {s s' : Session} {schema : Schema}
    (hs : s.Copying context)
    (hroot : location.path.isRoot = true ∨ Entries.contains context.uri s.inProgress = true)
    (h : context.Stands location (.object object))
    (hr : ObjectRun load context location object s (.ok schema) s')
    (hreport : s'.report = s.report) :
    s'.Copying context ∧ schema.Copies context.draft (.object object) := by
  cases hr with
  | @finished inner declared builder s₁ s₂ hid hm =>
    have hframe := (hl.keywords hm).1
    obtain ⟨rfl, hinner, hpointers⟩ := hid.silent hc h hroot
      (Report.eq_of_prefix hid.frame.1.report hframe.report hreport)
    have hknown : Entries.contains context.uri
        (s₁.enter (location.pointerUri :: location.uri :: declared)).inProgress = true := by
      refine contains_enter (hroot.imp_left fun hr => List.mem_cons.mpr (Or.inl ?_))
      rw [Location.pointerUri, h.tidy.document, Location.withPath, if_pos hr, hc.uri]
    obtain ⟨⟨hs₂, -⟩, htakes⟩ := (silent_keywordsRun hl hf hc hinner).ok
      ⟨hs.enter _, hknown⟩ hm hreport
    have hcopies : (Schema.node s₁.store.nodes.size inner context.draft builder.body).Copies
        context.draft (.object object) :=
      copies_object (Json.all_self (Lookup.all_at? hc.ordered h.at?)) (keywordsRun_body hm) htakes
    refine ⟨hs.leave hframe hs₂ rfl fun hu hat => ?_, hcopies⟩
    have hself := h.at?
    rw [← hpointers _ hu] at hself
    cases hself.symm.trans hat
    exact hcopies

theorem faithful_loadWith (hl : Framed load) (hf : Faithful context load)
    (hc : context.Regular) : Faithful context (loadWith load) := by
  intro location value hops s s' found hs hroot h hr hreport
  cases nodeRun_of_runs hr with
  | outside hnone =>
    rw [hs.current?] at hnone
    cases hnone
  | @known _ object t hcurrent hv hb =>
    have hmem := Entries.mem_of_get? hb
    rw [Location.pointerUri, h.tidy.document] at hmem
    exact ⟨hs, t, rfl, hs.built hmem h.at?⟩
  | reference hcurrent hv hb href =>
    have hplain := (hc.plain _ h.schema).reference
    rw [hv] at hplain
    cases href.symm.trans hplain
  | @object _ object t _ hcurrent hv hb href hrun =>
    cases hs.current?.symm.trans hcurrent
    subst hv
    obtain ⟨hs', hcopies⟩ := hf.object hl hc hs hroot h hrun hreport
    exact ⟨hs', t, rfl, hcopies⟩
  | @boolean _ b hcurrent hv hallowed =>
    cases hs.current?.symm.trans hcurrent
    subst hv
    have hallows : context.draft.allowsBooleanSchemas = true := by
      have hdrafts : (DraftSet.only context.draft).drafts = [context.draft] := by
        cases context.draft <;> rfl
      simpa [hc.active, hdrafts] using hallowed
    refine ⟨hs.add location context.draft (.boolean b), _, rfl, ?_, rfl⟩
    rw [Schema.render_eq]
    exact if_pos hallows
  | refused => exact absurd hreport (record_report_ne _ _ _ _ _ _)

theorem faithful_loadNode (hc : context.Regular) (steps : Nat) :
    Faithful context (loadNode steps) := by
  induction steps with
  | zero =>
    intro location value hops s s' found _ _ _ hr
    cases (runs_throw.mp hr).1
  | succ steps ih => exact faithful_loadWith (framed_loadNode steps) ih hc

end Loading

/-! ## Requests -/

theorem Policy.draftsOf_ofDraft {draft : Draft} {metaSchema : Option String}
    (h : ∀ text, metaSchema = some text → Draft.ofMetaSchema? text = some draft) :
    (ofDraft draft).draftsOf metaSchema = (draft, .only draft, none) := by
  cases metaSchema with
  | none => rfl
  | some text => simp only [draftsOf, h text rfl]

namespace Load

/-- What a load of a whole document reads without a report copies the document. -/
theorem copies_of_run {l : Load} (hc : l.context.Regular) (huri : l.uri = l.documentUri)
    {schema : Schema} {report : Report} (h : l.run.1 = .ok (schema, report))
    (hreport : report.issues = []) : schema.Copies l.context.draft l.document := by
  obtain ⟨start, s, hlocate, hr, hs, -⟩ := run_ok h
  have hstart : l.context.locate l.context.uri = some (.ofDocument l.documentUri, l.document) :=
    OpenDocument.locate_self hc.uri
  rw [huri] at hlocate
  cases hstart.symm.trans hlocate
  have hsilent : s.report = l.session.report := by
    have hgrown := ((Loading.framed_loadNode _).frame hr).report
    rw [hs, hreport] at hgrown
    exact hs.trans (congrArg Report.mk (hreport.trans (List.prefix_nil.mp hgrown).symm))
  have hcopying : l.session.Copying l.context := by
    rw [l.session_eq]
    constructor
    · rfl
    · intro entry he
      cases he
    · intro path value t hm
      cases hm
  have hstands : l.context.Stands (.ofDocument l.documentUri) l.document :=
    ⟨Location.tidy_ofDocument hc.uri, rfl, .root⟩
  obtain ⟨-, t, ht, hcopies⟩ :=
    Loading.faithful_loadNode hc _ hcopying (Or.inl rfl) hstands hr hsilent
  cases ht
  exact hcopies

end Load

namespace Workspace

open Loading

/-- A document without references, read in one draft without a report, is written in this draft
as its normal form. -/
theorem render_readReporting {draft : Draft} {w w' : Workspace} {uri : Uri} {document : Json}
    {schema : Schema} {report : Report}
    (hfresh : w.cache.contains uri.withoutFragment.normalized = false)
    (hstored : document.all Json.isStored = true) (hordered : document.all Json.isOrdered = true)
    (hdraft : ∀ text, document.member? "$schema" = some (.string text) →
      Draft.ofMetaSchema? text = some draft)
    (hplain : ∀ value, Json.Schemas draft document value → value.Plain draft)
    (hr : Runs (readReporting (.ofDraft draft) uri document) w (.ok (schema, report)) w')
    (hreport : report.issues = []) :
    schema.render draft true = document.normalize draft := by
  cases hl : Request.loadAt? (.ofDraft draft) w uri document with
  | none =>
    simp only [Request.loadAt?, hfresh, Bool.false_eq_true, if_false] at hl
    cases hl
  | some l =>
    have hrun := ((Request.runs_readReporting_of_load hl).unique hr).1
    obtain ⟨hpolicy, huri, rfl⟩ := Request.loadAt?_some hl
    have hdrafts := Policy.draftsOf_ofDraft fun text htext => by
      obtain ⟨value, hvalue, hstring⟩ := Option.bind_eq_some_iff.mp htext
      exact hdraft text (hvalue.trans (congrArg some (Json.eq_string hstring)))
    have hdraft' : l.context.draft = draft := by
      rw [Load.context, Policy.openAs, hpolicy, hdrafts]
    have hactive : l.context.active = .only draft := by
      rw [Load.context, Policy.openAs, hpolicy, hdrafts]
    have hregular : l.context.Regular := by
      refine ⟨by rw [hactive, hdraft'], ?_, hstored, hordered, by rw [hdraft']; exact hplain⟩
      have hrequest : (Request.named uri l.document).load? (.ofDraft draft) w = some l := hl
      exact Request.load?_documentUri hrequest
    have hcopies := Load.copies_of_run hregular huri hrun hreport
    rw [hdraft'] at hcopies
    exact hcopies.render

/-- A schema in a document, with a name in a list. -/
def profileName : Json :=
  .object [("minLength", .number (.integer 2)),
    ("type", .array [.string "string", .string "string"])]

/-- A document that is not written as it was read. -/
def profile : Json :=
  .object [("dependencies", .object [("age", .string "name")]), ("exclusiveMinimum", .bool false),
    ("minimum", .number (.integer 1)), ("properties", .object [("name", profileName)]),
    ("required", .array [.string "name", .string "age", .string "name"])]

theorem plain_profile : ∀ value, Json.Schemas .draft4 profile value → value.Plain .draft4 := by
  have hvalues : ∀ value, Json.Schemas .draft4 profile value →
      value = profile ∨ value = profileName := by
    intro value h
    induction h with
    | root => exact Or.inl rfl
    | @nested members location place _ hp ih =>
      rcases ih with heq | heq
      · cases heq
        change place ∈ [((location.child "properties").child "name", profileName)] at hp
        exact Or.inr (congrArg Prod.snd (List.mem_singleton.mp hp))
      · cases heq
        change place ∈ [] at hp
        cases hp
  intro value h
  rcases hvalues value h with rfl | rfl
  · exact Json.plain_of_anonymous rfl rfl (by decide +kernel)
  · exact Json.plain_of_anonymous rfl rfl (by decide +kernel)

theorem render_profile : ∃ schema report w',
    Runs (readReporting (.ofDraft .draft4) ⟨"urn", none, .opaqueText "profile", none, none⟩ profile)
      .empty (.ok (schema, report)) w' ∧ report.issues = [] ∧
    schema.render .draft4 true = .object
      [("dependencies", .object [("age", .array [.string "name"])]),
        ("minimum", .number (.integer 1)),
        ("properties", .object [("name", .object
          [("minLength", .number (.integer 2)), ("type", .string "string")])]),
        ("required", .array [.string "age", .string "name"])] := by
  have hcheck : ((ExceptT.run (readReporting (.ofDraft .draft4)
      ⟨"urn", none, .opaqueText "profile", none, none⟩ profile)).run .empty).1.toOption.any
      (fun answer => answer.2.issues.isEmpty) = true := by
    decide +kernel
  rcases hr : (ExceptT.run (readReporting (.ofDraft .draft4)
    ⟨"urn", none, .opaqueText "profile", none, none⟩ profile)).run .empty with
    ⟨failure | ⟨schema, report⟩, w'⟩
  · rw [hr] at hcheck
    cases hcheck
  · rw [hr] at hcheck
    have hreport : report.issues = [] := List.isEmpty_iff.mp hcheck
    refine ⟨schema, report, w', hr, hreport, ?_⟩
    exact (render_readReporting rfl (by decide +kernel) (by decide +kernel) (fun _ h => by cases h)
      plain_profile hr hreport).trans rfl

end Workspace
end SchemaAtlas
