import SchemaAtlas.Proofs.Loading.Coincide

/-!
# Loads as transactions on the cache

A call for a schema is answered from the cache or by a load. A load works on a copy: what it
finishes is put in the cache when it has ended well, all at once. So the cache after a call
that fails is the cache before it, and after a call that succeeds it has gained the schema
asked for, beside nodes that the load finished, and lost nothing.
-/

namespace SchemaAtlas

namespace Cache

theorem contains_insert {uri other : Uri} {schema : Schema} {c : Cache}
    (h : c.contains other = true) : (c.insert uri schema).contains other = true := by
  rw [contains, get?_insert]
  split
  · rfl
  · exact h

theorem contains_insertAll {table : List (Uri × Schema)} {other : Uri} {c : Cache}
    (h : c.contains other = true) : (c.insertAll table).contains other = true := by
  induction table generalizing c with
  | nil => exact h
  | cons entry rest ih => exact ih (contains_insert h)

end Cache

namespace Workspace

/-- The node was finished between two states of a workspace. -/
structure Finishes (w w' : Workspace) (t : Schema) : Prop where
  fresh : w.store.nodes.size ≤ t.id
  stored : w'.store.node? t.id = some t

/-- The cache of `w'` is that of `w` with the schema at a URI, beside nodes that were finished
on the way. -/
structure Commits (w w' : Workspace) (uri : Uri) (schema : Schema) : Prop where
  requested : w'.cache.get? uri = some schema
  kept : ∀ {other}, w.cache.contains other = true → w'.cache.contains other = true
  entered : ∀ {other t}, w'.cache.get? other = some t →
    w.cache.get? other = some t ∨ t = schema ∨ w.Finishes w' t

/-- A step on a workspace that is a transaction on the cache. It asks for the schema at a URI,
which is part of its result; `load?` says which load it begins, and `again` what it comes to
when it is repeated. -/
structure Transactional {α : Type} (step : WorkspaceM α) (uri? : Option Uri)
    (load? : Workspace → Option Load) (schema : α → Schema) (again : α → α) : Prop where
  rollback : ∀ {w failure w'}, Runs step w (.error failure) w' → w'.cache = w.cache
  commit : ∀ {w a w'}, Runs step w (.ok a) w' → ∃ uri, uri? = some uri ∧
    w.Commits w' uri (schema a)
  repeated : ∀ {w a w'}, Runs step w (.ok a) w' → load? w' = none ∧
    Runs step w' (.ok (again a)) w'

/-- A step that answers from the cache, or by a load, or fails at once. -/
structure Asks {α : Type} (step : WorkspaceM α) (uri? : Option Uri)
    (load? : Workspace → Option Load) (ofLoad : Schema × Report → α) (ofCache : Schema → α) :
    Prop where
  loads : ∀ {w l}, load? w = some l → uri? = some l.uri ∧ l.workspace.cache = w.cache ∧
    l.workspace.store = w.store ∧ Runs step w (l.run.1.map ofLoad) l.run.2
  cached : ∀ {w uri schema}, uri? = some uri → w.cache.get? uri = some schema →
    load? w = none ∧ Runs step w (.ok (ofCache schema)) w
  fails : ∀ {w}, load? w = none → (∀ uri, uri? = some uri → w.cache.get? uri = none) →
    ∃ failure, Runs step w (.error failure) w

end Workspace

/-- The URI that a request asks for. -/
def Request.uri? : Request → Option Uri
  | .ofDocument document => some (documentName document).withoutFragment.normalized
  | .ofText text => (Json.read text).map fun document =>
    (documentName document).withoutFragment.normalized
  | .named uri _ => some uri.withoutFragment.normalized
  | .ofUri uri => some uri.normalized

namespace Load

/-- The nodes that a load enters are among those that it made. -/
theorem built_made {l : Load} {start : Location × Json} {found : Option Schema} {s : Session}
    (h : Runs (l.reading start) l.session (.ok found) s) :
    ∀ entry ∈ s.built, s.Made l.workspace.store.nodes.size entry.2 := by
  have hlawful := Ledger.silent_lawful l.library ⟨l.context, start.1, start.2⟩
  have hend := (Ledger.keeps_loadNode hlawful _ _ .refl l.inside (l.kept_session _) h).1
  exact fun entry he => (hend.built entry he).1

theorem commits {l : Load} {schema : Schema} {report : Report}
    (h : l.run.1 = .ok (schema, report)) : l.workspace.Commits l.run.2 l.uri schema := by
  obtain ⟨start, s, hl, hr, _, _, hw⟩ := run_ok h
  have hcache : s.cache = l.workspace.cache := by
    rw [((Loading.framed_loadNode _).frame hr).cache, l.session_eq]
    rfl
  rw [hw]
  constructor
  · exact (Cache.get?_insert ..).trans (if_pos rfl)
  · intro other ho
    exact Cache.contains_insert (Cache.contains_insertAll (hcache ▸ ho))
  · intro other t ht
    change ((s.cache.insertAll s.built).insert l.uri schema).get? other = some t at ht
    rw [Cache.get?_insert] at ht
    split at ht
    · exact Or.inr (Or.inl (Option.some.inj ht).symm)
    · rcases Cache.get?_insertAll ht with ⟨key, hm⟩ | hold
      · obtain ⟨hfresh, hstored⟩ := built_made hr (key, _) hm
        exact Or.inr (Or.inr ⟨hfresh, hstored⟩)
      · exact Or.inl (hcache ▸ hold)

/-- A load that fails leaves the cache as it found it. -/
theorem rollback {l : Load} {failure : Failure} (h : l.run.1 = .error failure) :
    l.run.2.cache = l.workspace.cache := by
  rcases run_error h with hw | ⟨start, outcome, s, _, hr, hw⟩
  · rw [hw]
  · rw [hw]
    change s.cache = _
    rw [((Loading.framed_loadNode _).frame hr).cache, l.session_eq]
    rfl

end Load

namespace Workspace

variable {α : Type} {step : WorkspaceM α} {uri? : Option Uri} {load? : Workspace → Option Load}
variable {ofLoad : Schema × Report → α} {ofCache : Schema → α} {schema : α → Schema}

/-- What is answered from the cache was there before, and stays there. -/
theorem commits_of_cached {w : Workspace} {uri : Uri} {known : Schema}
    (h : w.cache.get? uri = some known) : w.Commits w uri known :=
  ⟨h, id, Or.inl⟩

theorem Commits.congr {w v w' : Workspace} {uri : Uri} {known : Schema}
    (h : v.Commits w' uri known) (hc : v.cache = w.cache) (hs : v.store = w.store) :
    w.Commits w' uri known := by
  refine ⟨h.requested, fun ho => h.kept (hc ▸ ho), fun ht => ?_⟩
  rcases h.entered ht with hold | heq | hnew
  · exact Or.inl (hc ▸ hold)
  · exact Or.inr (Or.inl heq)
  · exact Or.inr (Or.inr ⟨hs ▸ hnew.fresh, hnew.stored⟩)

/-- A step that asks for a schema comes to what the cache or its load has. -/
theorem Asks.cases (h : Asks step uri? load? ofLoad ofCache) {w w' : Workspace}
    {r : Except Failure α} (hr : Runs step w r w') :
    (∃ l, load? w = some l ∧ r = l.run.1.map ofLoad ∧ w' = l.run.2) ∨
      (w' = w ∧ ∃ uri known, uri? = some uri ∧ w.cache.get? uri = some known ∧
        r = .ok (ofCache known)) ∨
      (w' = w ∧ ∃ failure, r = .error failure) := by
  cases hl : load? w with
  | some l =>
    obtain ⟨_, _, _, hrun⟩ := h.loads hl
    obtain ⟨hresult, hw⟩ := hr.unique hrun
    exact Or.inl ⟨l, rfl, hresult, hw⟩
  | none =>
    by_cases hcached : ∃ uri known, uri? = some uri ∧ w.cache.get? uri = some known
    · obtain ⟨uri, known, hu, hc⟩ := hcached
      obtain ⟨hresult, hw⟩ := hr.unique (h.cached hu hc).2
      exact Or.inr (Or.inl ⟨hw, uri, known, hu, hc, hresult⟩)
    · have hnone : ∀ uri, uri? = some uri → w.cache.get? uri = none := by
        intro uri hu
        cases hc : w.cache.get? uri with
        | none => rfl
        | some known => exact absurd ⟨uri, known, hu, hc⟩ hcached
      obtain ⟨failure, hrun⟩ := h.fails hl hnone
      obtain ⟨hresult, hw⟩ := hr.unique hrun
      exact Or.inr (Or.inr ⟨hw, failure, hresult⟩)

/-- Every step that asks for a schema is a transaction. -/
theorem Asks.transactional (h : Asks step uri? load? ofLoad ofCache)
    (hload : ∀ known report, schema (ofLoad (known, report)) = known)
    (hcache : ∀ known, schema (ofCache known) = known) :
    Transactional step uri? load? schema fun a => ofCache (schema a) := by
  have hcommit : ∀ {w a w'}, Runs step w (.ok a) w' → ∃ uri, uri? = some uri ∧
      w.Commits w' uri (schema a) := by
    intro w a w' hr
    rcases h.cases hr with ⟨l, hl, hresult, rfl⟩ | ⟨rfl, uri, known, hu, hc, hresult⟩ |
      ⟨_, failure, hresult⟩
    · obtain ⟨hu, hc, hs, _⟩ := h.loads hl
      cases hrun : l.run.1 with
      | error failure =>
        rw [hrun] at hresult
        cases hresult
      | ok result =>
        rw [hrun] at hresult
        cases hresult
        rw [hload result.1 result.2]
        exact ⟨l.uri, hu, (Load.commits hrun).congr hc hs⟩
    · cases hresult
      rw [hcache]
      exact ⟨uri, hu, commits_of_cached hc⟩
    · cases hresult
  constructor
  · intro w failure w' hr
    rcases h.cases hr with ⟨l, hl, hresult, rfl⟩ | ⟨rfl, _⟩ | ⟨rfl, _⟩
    · obtain ⟨_, hc, _⟩ := h.loads hl
      cases hrun : l.run.1 with
      | error failure' => exact (Load.rollback hrun).trans hc
      | ok result =>
        rw [hrun] at hresult
        cases hresult
    · rfl
    · rfl
  · exact hcommit
  · intro w a w' hr
    obtain ⟨uri, hu, hcommits⟩ := hcommit hr
    exact h.cached hu hcommits.requested

/-! ## The calls -/

/-- Reading a document at a URI asks for the schema there. -/
theorem asks_readReporting (policy : Policy) (uri : Uri) (document : Json) :
    Asks (readReporting policy uri document) (some uri.withoutFragment.normalized)
      (fun w => Request.loadAt? policy w uri document) id fun known => (known, .empty) := by
  have hnone : ∀ {w known}, w.cache.get? uri.withoutFragment.normalized = some known →
      Request.loadAt? policy w uri document = none := by
    intro w known hc
    simp [Request.loadAt?, Cache.contains, hc]
  constructor
  · intro w l hl
    have hrequest : (Request.named uri document).load? policy w = some l := hl
    obtain ⟨_, hcache, hstore⟩ := Request.load?_workspace hrequest
    refine ⟨?_, hcache, hstore, ?_⟩
    · unfold Request.loadAt? at hl
      dsimp only at hl
      split at hl
      · cases hl
      · cases hl
        rfl
    · rw [show l.run.1.map id = l.run.1 by cases l.run.1 <;> rfl]
      exact Request.runs_readReporting_of_load hl
  · rintro w _ known ⟨⟩ hc
    refine ⟨hnone hc, ?_⟩
    obtain ⟨schema, hc', hrun⟩ := Request.runs_readReporting_of_none (hnone hc)
    cases hc.symm.trans hc'
    exact hrun
  · intro w hl huncached
    obtain ⟨schema, hc, _⟩ := Request.runs_readReporting_of_none hl
    cases hc.symm.trans (huncached _ rfl)

/-- Dropping a part of the result changes nothing else. -/
theorem Asks.returning {β : Type} (h : Asks step uri? load? ofLoad ofCache) (f : α → β) :
    Asks (do return f (← step)) uri? load? (f ∘ ofLoad) (f ∘ ofCache) := by
  constructor
  · intro w l hl
    obtain ⟨hu, hc, hs, hrun⟩ := h.loads hl
    refine ⟨hu, hc, hs, ?_⟩
    rw [show l.run.1.map (f ∘ ofLoad) = (l.run.1.map ofLoad).map f by cases l.run.1 <;> rfl]
    exact hrun.returning f
  · intro w uri known hu hc
    exact ⟨(h.cached hu hc).1, (h.cached hu hc).2.returning f⟩
  · intro w hl huncached
    obtain ⟨failure, hrun⟩ := h.fails hl huncached
    exact ⟨failure, hrun.returning f⟩

theorem asks_loadUri (policy : Policy) (uri : Uri) :
    Asks (loadUri policy uri) (some uri.normalized) (Request.load? (.ofUri uri) policy) Prod.fst
      id := by
  have hnone : ∀ {w known}, w.cache.get? uri.normalized = some known →
      Request.load? (.ofUri uri) policy w = none := by
    intro w known hc
    simp [Request.load?, Cache.contains, hc]
  constructor
  · intro w l hl
    obtain ⟨_, hcache, hstore⟩ := Request.load?_workspace hl
    refine ⟨?_, hcache, hstore, Request.run_of_load? hl⟩
    unfold Request.load? at hl
    dsimp only at hl
    split at hl
    · cases hl
    · split at hl
      · cases hl
        rfl
      · obtain ⟨found, _, rfl⟩ := Option.map_eq_some_iff.mp hl
        rfl
  · rintro w _ known ⟨⟩ hc
    have hrun := Request.runs_loadUri_of_none (hnone hc)
    rw [hc] at hrun
    exact ⟨hnone hc, hrun⟩
  · intro w hl huncached
    have hrun := Request.runs_loadUri_of_none hl
    rw [huncached _ rfl] at hrun
    exact ⟨_, hrun⟩

/-- A text that is not JSON asks for nothing. -/
theorem asks_readText (policy : Policy) (text : String) :
    Asks (readText policy text) (Request.uri? (.ofText text)) (Request.load? (.ofText text) policy)
      Prod.fst id := by
  cases hread : Json.read text with
  | some document =>
    have hnamed := (asks_readReporting policy (documentName document) document).returning Prod.fst
    unfold readText Request.uri? Request.load?
    simp only [hread]
    exact hnamed
  | none =>
    unfold readText Request.uri? Request.load?
    simp only [hread]
    constructor
    · intro w l hl
      cases hl
    · intro w uri known hu
      cases hu
    · intro w _ _
      exact ⟨.json, runs_throw.mpr ⟨rfl, rfl⟩⟩

theorem asks_request (policy : Policy) (request : Request) :
    Asks (request.action policy) request.uri? (request.load? policy) Prod.fst id := by
  cases request with
  | ofDocument document =>
    exact (asks_readReporting policy (documentName document) document).returning Prod.fst
  | ofText text => exact asks_readText policy text
  | named uri document => exact (asks_readReporting policy uri document).returning Prod.fst
  | ofUri uri => exact asks_loadUri policy uri

/-- Every call for a schema is a transaction on the cache: the four requests, and the reading
that gives its report, which is empty when it is repeated. -/
theorem transactional_calls (policy : Policy) :
    (∀ request : Request, Transactional (request.action policy) request.uri?
      (request.load? policy) id id) ∧
    ∀ uri document, Transactional (readReporting policy uri document)
      (some uri.withoutFragment.normalized) (fun w => Request.loadAt? policy w uri document)
      Prod.fst fun result => (result.1, .empty) := by
  constructor
  · intro request
    exact (asks_request policy request).transactional (fun _ _ => rfl) fun _ => rfl
  · intro uri document
    exact (asks_readReporting policy uri document).transactional (fun _ _ => rfl) fun _ => rfl

end Workspace
end SchemaAtlas
