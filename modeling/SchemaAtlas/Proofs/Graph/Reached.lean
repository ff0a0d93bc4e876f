import SchemaAtlas.Proofs.Graph.Provenance
import SchemaAtlas.Proofs.Loading.Throughout

/-!
# What holds of every reached node

A schema leads to the nodes nested in it and, by its references, to nodes of other documents,
some of them read by earlier loads. What reading gives to every node holds of all of these
(`Gave.reached`): a node that a load makes leads to nodes of the same load or to what the cache
recalls, and of the latter it holds by the load that made them.
-/

namespace SchemaAtlas

/-- What a complete node leads to in a store that has grown, it led to before. -/
theorem Store.Complete.reaches_of_grows {st st' : Store} {c t : Schema} (h : st.Complete c)
    (hg : st.Grows st') (ht : st'.Reaches c t) : st.Reaches c t := by
  induction ht with
  | refl => exact .refl
  | tail _ he ih => exact h.reaches_tail hg ih he

variable {P : Schema → Prop}

/-- What reading gives to every node, all nodes have that a load makes. -/
theorem Load.given_of_finishes (hP : Loading.Gives P) {l : Load} {schema t : Schema}
    {report : Report} (h : l.run.1 = .ok (schema, report))
    (ht : l.workspace.Finishes l.run.2 t) : P t := by
  have hrelates : ∀ {start load}, Loading.Relates (fun _ => P) l.library start load := by
    intro start load p object s s' N _ _ _ hr
    cases hr with
    | finished _ hread => exact hP.object hread
  obtain ⟨_, s, hs, -, -, -, hstore⟩ := traced_of_run (fun _ => hrelates) h
  obtain ⟨hfirst, hstored⟩ := ht
  rw [hstore] at hstored
  obtain ⟨id, location, draft, body⟩ := t
  cases body with
  | object =>
    obtain ⟨_, -, ht⟩ := (hs.nodes hfirst hstored).origin rfl
    exact ht
  | boolean => exact hP.boolean
  | reference => exact hP.reference

/-- A load gives and caches schemas all of whose reached nodes have the property, if the cache
held such schemas before. -/
theorem Load.reached (hP : Loading.Gives P) {l : Load}
    (hcomplete : ∀ uri c, l.workspace.cache.get? uri = some c → l.workspace.store.Complete c)
    (hcache : ∀ uri c, l.workspace.cache.get? uri = some c →
      ∀ t, l.workspace.store.Reaches c t → P t) :
    (∀ s report, l.run.1 = .ok (s, report) → ∀ t, l.run.2.store.Reaches s t → P t) ∧
      ∀ uri c, l.run.2.cache.get? uri = some c → ∀ t, l.run.2.store.Reaches c t → P t := by
  have hgrows := (Load.complete hcomplete).1
  have hold : ∀ uri c, l.workspace.cache.get? uri = some c →
      ∀ t, l.run.2.store.Reaches c t → P t := fun uri c hc t ht =>
    hcache uri c hc t ((hcomplete uri c hc).reaches_of_grows hgrows ht)
  cases h : l.run.1 with
  | error failure =>
    refine ⟨fun _ _ h => (nomatch h), fun uri c hc => ?_⟩
    rw [Load.rollback h] at hc
    exact hold uri c hc
  | ok result =>
    obtain ⟨schema, report⟩ := result
    have hnew : ∀ s, l.workspace.Finishes l.run.2 s → ∀ t, l.run.2.store.Reaches s t → P t := by
      intro s hs t ht
      rcases reaches_cases_of_finishes hcomplete h hs ht with hmade | ⟨uri, c, hc, hreaches⟩
      · exact given_of_finishes hP h hmade
      · exact hcache uri c hc t hreaches
    have hschema := hnew schema (finishes_of_run h)
    refine ⟨?_, fun uri c hc => ?_⟩
    · rintro s report' ⟨⟩
      exact hschema
    · rcases (Load.commits h).entered hc with hc | rfl | hmade
      · exact hold uri c hc
      · exact hschema
      · exact hnew c hmade

/-- What reading gives to every node holds of all nodes that the schemas lead to which requests
gave. -/
theorem Gave.reached (hP : Loading.Gives P) {st : Store} {given : Schema → Prop}
    (h : Gave st given) : ∀ s, given s → ∀ t, st.Reaches s t → P t := by
  induction h with
  | nothing => exact fun _ h => h.elim
  | grow hgave hg ih =>
    exact fun s hs t ht => ih s hs t ((hgave.complete s hs).reaches_of_grows hg ht)
  | @request w given request policy hgave hcache ih =>
    have hcomplete : ∀ uri c, w.cache.get? uri = some c → w.store.Complete c :=
      fun uri c hc => hgave.complete c (hcache uri c hc)
    have hgrows := (Request.complete request policy hcomplete).1
    have hold : ∀ s, given s → ∀ t, (request.run policy w).2.store.Reaches s t → P t :=
      fun s hs t ht => ih s hs t ((hgave.complete s hs).reaches_of_grows hgrows ht)
    cases hl : request.load? policy w with
    | none =>
      obtain ⟨r, hanswer, heq⟩ := Request.answer_of_load?_none hl
      rw [heq] at hold ⊢
      rintro s (hs | rfl | ⟨uri, hs⟩)
      · exact hold s hs
      · cases hanswer with
        | cached hc => exact hold s (hcache _ _ hc)
      · exact hold s (hcache uri s hs)
    | some l =>
      obtain ⟨-, hsame, hstore⟩ := Request.load?_workspace hl
      obtain ⟨hgiven, hcached⟩ := Load.reached hP (l := l)
        (by rw [hsame, hstore]; exact hcomplete)
        (by rw [hsame, hstore]; exact fun uri c hc => ih c (hcache uri c hc))
      rw [Request.run_of_load? hl] at hold ⊢
      rintro s (hs | hs | ⟨uri, hs⟩)
      · exact hold s hs
      · cases hr : l.run.1 with
        | error failure =>
          rw [hr] at hs
          cases hs
        | ok result =>
          rw [hr] at hs
          cases hs
          exact hgiven _ _ hr
      · exact hcached uri s hs

end SchemaAtlas
