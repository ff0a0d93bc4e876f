import SchemaAtlas.Proofs.Loading.Keywords

/-!
# The steps of a load

For each function that reads nodes, what a run of it can come to, one constructor for each
way that it can go. The function that reads nested nodes is a parameter throughout, so what
a step does is said once, before anything is known about the steps inside it.
-/

namespace SchemaAtlas

/-- A document as a policy reads it. -/
def Policy.openAs (policy : Policy) (uri : Uri) (document : Json) : OpenDocument :=
  let metaSchema := (document.member? "$schema").bind Json.string?
  { uri, document, draft := (policy.draftsOf metaSchema).1,
    active := (policy.draftsOf metaSchema).2.1 }

/-- The place that a URI names in a document. -/
def OpenDocument.locate (document : OpenDocument) (uri : Uri) : Option (Location × Json) :=
  Lookup.locate document.active.idKeys (Location.ofDocument document.uri) document.document uri

/-- Whether a value can be read as a schema. -/
def OpenDocument.accepts (document : OpenDocument) : Json → Bool
  | .object _ => true
  | .bool _ => document.active.drafts.any Draft.allowsBooleanSchemas
  | _ => false

namespace Session

/-- The document at a URI, open or to be opened. -/
def remote? (s : Session) (uri : Uri) : Option OpenDocument :=
  (Entries.get? uri s.opened).or
    (((s.documents.loaded? uri).or ((s.documents.fetch? uri).map Prod.fst)).map
      (s.policy.openAs uri))

/-- The session in which the keywords of a new node are read. -/
def enter (uris : List Uri) (s : Session) : Session :=
  { s with store := s.store.reserve.2 }.register s.store.nodes.size uris

/-- The session after the keywords of a node have been read. -/
def leave (schema : Schema) (uris : List Uri) (s : Session) : Session :=
  let s := s.release schema.id uris
  { s with store := s.store.complete schema }.finish schema uris

/-- The effect of opening a document. -/
inductive Opens (uri : Uri) (s : Session) : OpenDocument → Session → Prop
  | again {found : OpenDocument} : Entries.get? uri s.opened = some found → Opens uri s found s
  | loaded {document : Json} : Entries.get? uri s.opened = none →
      s.documents.loaded? uri = some document →
      Opens uri s (s.openDocument uri document).1 (s.openDocument uri document).2
  | fetched {document : Json} {documents : Documents} : Entries.get? uri s.opened = none →
      s.documents.loaded? uri = none → s.documents.fetch? uri = some (document, documents) →
      Opens uri s ({ s with documents }.openDocument uri document).1
        ({ s with documents }.openDocument uri document).2

theorem openDocument_of_new {uri : Uri} (s : Session) {document : Json}
    (h : Entries.get? uri s.opened = none) :
    (s.openDocument uri document).1 = s.policy.openAs uri document := by
  simp only [openDocument, h, Policy.openAs]

theorem documents_openDocument (s : Session) (uri : Uri) (document : Json) :
    (s.openDocument uri document).2.documents = s.documents := by
  unfold openDocument
  split
  · rfl
  · dsimp only
    split <;> rfl

/-- Opening a document does not change what its URI leads to. -/
theorem Opens.remote?_eq {uri : Uri} {s s' : Session} {document : OpenDocument}
    (h : Opens uri s document s') :
    s.remote? uri = some document ∧ s'.remote? uri = some document := by
  cases h with
  | again ho => simp [Session.remote?, ho]
  | loaded ho hl =>
    constructor
    · rw [openDocument_of_new s ho]
      simp [Session.remote?, ho, hl]
    · simp [Session.remote?, openDocument, ho, Entries.get?_put]
  | @fetched loaded documents ho hl hf =>
    constructor
    · rw [openDocument_of_new { s with documents } ho]
      simp [Session.remote?, ho, hl, hf]
    · simp [Session.remote?, openDocument, ho, Entries.get?_put]

end Session

namespace Loading

open LoadM

/-- The documents that a URI is looked for in, in their order: those nearby, and the one that
the URI names if that is none of them. -/
def candidates (nearby : List OpenDocument) (remote : Uri → Option OpenDocument) (uri : Uri) :
    List OpenDocument :=
  if nearby.any (·.uri = uri.withoutFragment) then nearby
  else nearby ++ (remote uri.withoutFragment).toList

theorem prefix_candidates (nearby : List OpenDocument) (remote : Uri → Option OpenDocument)
    (uri : Uri) : nearby <+: candidates nearby remote uri := by
  unfold candidates
  split
  · exact List.prefix_refl _
  · exact List.prefix_append _ _

section

variable (load : NodeLoader)

/-- Documents in which a URI has been looked for in vain. -/
inductive Searches (uri : Uri) (hops : Nat) : Session → List OpenDocument → Session → Prop
  | start (s : Session) : Searches uri hops s [] s
  | absent {s s₁ : Session} {documents : List OpenDocument} {document : OpenDocument} :
      Searches uri hops s documents s₁ → document.locate uri = none →
      Searches uri hops s (documents ++ [document]) s₁
  | refused {s s₁ s₂ : Session} {documents : List OpenDocument} {document : OpenDocument}
      {location : Location} {value : Json} :
      Searches uri hops s documents s₁ → document.locate uri = some (location, value) →
      Runs (load location value (hops + 1)) (s₁.push document) (.ok none) s₂ →
      Searches uri hops s (documents ++ [document]) s₂.pop
  | opened {s s₁ s₂ : Session} {documents : List OpenDocument} {document : OpenDocument} :
      Searches uri hops s documents s₁ → Session.Opens uri.withoutFragment s₁ document s₂ →
      Searches uri hops s documents s₂

/-- Looking for a URI in documents: in vain, or up to the first one that has it. -/
inductive TryRun (uri : Uri) (hops : Nat) (documents : List OpenDocument) (s : Session) :
    Except Stop (Option Schema) → Session → Prop
  | vain {s' : Session} : Searches load uri hops s documents s' →
      TryRun uri hops documents s (.ok none) s'
  | found {before after : List OpenDocument} {document : OpenDocument} {location : Location}
      {value : Json} {r : Except Stop (Option Schema)} {s₁ s₂ : Session} :
      documents = before ++ document :: after → Searches load uri hops s before s₁ →
      document.locate uri = some (location, value) →
      Runs (load location value (hops + 1)) (s₁.push document) r s₂ → r ≠ .ok none →
      TryRun uri hops documents s r s₂.pop

/-- Following a URI that names no node yet. The documents that it is looked for in are told
by what is open at some time of the search. -/
inductive ChaseRun (origin : Location) (uri : Uri) (hops : Nat) (s : Session) :
    Except Stop Schema → Session → Prop
  | reached {searched before after : List OpenDocument} {document : OpenDocument}
      {location : Location} {value : Json} {target : Schema} {s₀ s₁ s₂ : Session} :
      Searches load uri hops s searched s₀ →
      candidates s.nearby s₀.remote? uri = before ++ document :: after →
      Searches load uri hops s before s₁ → document.locate uri = some (location, value) →
      Runs (load location value (hops + 1)) (s₁.push document) (.ok (some target)) s₂ →
      ChaseRun origin uri hops s (.ok target) s₂.pop
  | ends {searched before after : List OpenDocument} {document : OpenDocument}
      {location : Location} {value : Json} {e : Stop} {s₀ s₁ s₂ : Session} :
      Searches load uri hops s searched s₀ →
      candidates s.nearby s₀.remote? uri = before ++ document :: after →
      Searches load uri hops s before s₁ → document.locate uri = some (location, value) →
      Runs (load location value (hops + 1)) (s₁.push document) (.error e) s₂ →
      ChaseRun origin uri hops s (.error e) s₂.pop
  | lost {kind : IssueKind} {message : String} {searched : List OpenDocument}
      {s₀ s₁ : Session} : Searches load uri hops s searched s₀ →
      Searches load uri hops s (candidates s.nearby s₀.remote? uri) s₁ →
      kind = .unresolvedReference ∨ kind = .documentNotFound →
      ChaseRun origin uri hops s (.error .fatal)
        (s₁.record .error kind origin.document origin.path message)

/-- Finding the target of a reference. -/
inductive ResolveRun (location : Location) (written : String) (uri : Uri) (hops : Nat)
    (s : Session) : Except Stop Reference → Session → Prop
  | known {target : Schema} :
      (Entries.get? uri s.built).or (s.cache.get? uri) = some target →
      ResolveRun location written uri hops s (.ok (referenceTo written uri target)) s
  | reading {id : Nat} : (Entries.get? uri s.built).or (s.cache.get? uri) = none →
      Entries.get? uri s.inProgress = some id →
      ResolveRun location written uri hops s (.ok { written, uri, target := .node id }) s
  | tooFar {message : String} : s.policy.maxHops ≤ hops →
      ResolveRun location written uri hops s (.error .fatal)
        (s.record .error .referenceHopLimit location.document location.path message)
  | cycle {message : String} : s.knows uri = false → s.policy.maxHops > hops →
      uri ∈ s.resolving →
      message = s!"reference chain through {uri} never reaches a schema" →
      ResolveRun location written uri hops s (.error .fatal)
        (s.record .error .referenceCycle location.document location.path message)
  | chased {target : Schema} {s₁ : Session} : s.knows uri = false → uri ∉ s.resolving →
      ChaseRun load location uri hops (s.beginResolving uri) (.ok target) s₁ →
      ResolveRun location written uri hops s (.ok (referenceTo written uri target))
        ((s₁.endResolving uri).finish target [uri])
  | ends {e : Stop} {s₁ : Session} : s.knows uri = false → uri ∉ s.resolving →
      ChaseRun load location uri hops (s.beginResolving uri) (.error e) s₁ →
      ResolveRun location written uri hops s (.error e) (s₁.endResolving uri)

/-- Reading a reference. -/
inductive ReferenceRun (draft : Draft) (location : Location) (written : String) (hops : Nat)
    (s : Session) : Except Stop Schema → Session → Prop
  | malformed {fault : UriFault} {message : String} : location.resolve written = .error fault →
      ReferenceRun draft location written hops s (.error .fatal)
        (s.record .error .malformedReference (location.child "$ref").document
          (location.child "$ref").path message)
  | refers {uri : Uri} {reference : Reference} {s₁ : Session} :
      location.resolve written = .ok uri →
      ResolveRun load location written uri hops s (.ok reference) s₁ →
      ReferenceRun draft location written hops s
        (.ok (s₁.store.add location draft (.reference reference)).1)
        { s₁ with store := (s₁.store.add location draft (.reference reference)).2 }
  | ends {uri : Uri} {e : Stop} {s₁ : Session} : location.resolve written = .ok uri →
      ResolveRun load location written uri hops s (.error e) s₁ →
      ReferenceRun draft location written hops s (.error e) s₁

/-- Applying the identifier of an object. -/
inductive Identified (keys : List String) (location : Location) (object : List (String × Json))
    (s : Session) : Location → List Uri → Session → Prop
  | anonymous : Lookup.declaredId? keys (.object object) = none →
      Identified keys location object s location [] s
  | declared {id : String} {inner : Location} :
      Lookup.declaredId? keys (.object object) = some id → location.withId id = .ok inner →
      s.knows inner.uri = false → Identified keys location object s inner [inner.uri] s
  | repeated {id message : String} {inner : Location} :
      Lookup.declaredId? keys (.object object) = some id → location.withId id = .ok inner →
      s.knows inner.uri = true → Identified keys location object s inner []
        (s.record .warning .invalidIdentifier location.document location.path message)
  | broken {id message : String} {severity : Severity} {fault : UriFault} :
      Lookup.declaredId? keys (.object object) = some id → location.withId id = .error fault →
      Identified keys location object s location []
        (s.record severity .invalidIdentifier location.document location.path message)

/-- Reading the keywords of an object under a location. -/
abbrev keywordsRun (context : OpenDocument) (inner : Location)
    (object : List (String × Json)) : LoadM Builder :=
  Digest.members (fun location value => load location value 0) context.active object object
    (.new inner context.draft)

/-- Reading an object that is no reference. -/
inductive ObjectRun (context : OpenDocument) (location : Location)
    (object : List (String × Json)) (s : Session) : Except Stop Schema → Session → Prop
  | finished {inner : Location} {declared : List Uri} {builder : Builder} {s₁ s₂ : Session} :
      Identified context.active.idKeys location object s inner declared s₁ →
      Runs (keywordsRun load context inner object)
        (s₁.enter (location.pointerUri :: location.uri :: declared)) (.ok builder) s₂ →
      ObjectRun context location object s
        (.ok (.node s₁.store.nodes.size inner context.draft builder.body))
        (s₂.leave (.node s₁.store.nodes.size inner context.draft builder.body)
          (location.pointerUri :: location.uri :: declared))
  | ends {inner : Location} {declared : List Uri} {e : Stop} {s₁ s₂ : Session} :
      Identified context.active.idKeys location object s inner declared s₁ →
      Runs (keywordsRun load context inner object)
        (s₁.enter (location.pointerUri :: location.uri :: declared)) (.error e) s₂ →
      ObjectRun context location object s (.error e)
        (s₂.release s₁.store.nodes.size (location.pointerUri :: location.uri :: declared))

/-- Reading a node. -/
inductive NodeRun (location : Location) (value : Json) (hops : Nat) (s : Session) :
    Except Stop (Option Schema) → Session → Prop
  | outside : s.current? = none → NodeRun location value hops s (.ok none) s
  | known {context : OpenDocument} {object : List (String × Json)} {schema : Schema} :
      s.current? = some context → value = .object object →
      Entries.get? location.pointerUri s.built = some schema →
      NodeRun location value hops s (.ok (some schema)) s
  | badReference {context : OpenDocument} {object : List (String × Json)} {other : Json}
      {message : String} : s.current? = some context → value = .object object →
      Entries.get? "$ref" object = some other → other.string? = none →
      NodeRun location value hops s (.error .fatal)
        (s.record .error .malformedReference (location.child "$ref").document
          (location.child "$ref").path message)
  | reference {context : OpenDocument} {object : List (String × Json)} {written : String}
      {schema : Schema} {s' : Session} : s.current? = some context →
      value = .object object → Entries.get? location.pointerUri s.built = none →
      Entries.get? "$ref" object = some (.string written) →
      ReferenceRun load context.draft location written hops s (.ok schema) s' →
      NodeRun location value hops s (.ok (some schema)) s'
  | referenceEnds {context : OpenDocument} {object : List (String × Json)} {written : String}
      {e : Stop} {s' : Session} : s.current? = some context →
      value = .object object → Entries.get? location.pointerUri s.built = none →
      Entries.get? "$ref" object = some (.string written) →
      ReferenceRun load context.draft location written hops s (.error e) s' →
      NodeRun location value hops s (.error e) s'
  | object {context : OpenDocument} {object : List (String × Json)} {schema : Schema}
      {s' : Session} : s.current? = some context → value = .object object →
      Entries.get? location.pointerUri s.built = none → Entries.get? "$ref" object = none →
      ObjectRun load context location object s (.ok schema) s' →
      NodeRun location value hops s (.ok (some schema)) s'
  | objectEnds {context : OpenDocument} {object : List (String × Json)} {e : Stop}
      {s' : Session} : s.current? = some context → value = .object object →
      Entries.get? location.pointerUri s.built = none → Entries.get? "$ref" object = none →
      ObjectRun load context location object s (.error e) s' →
      NodeRun location value hops s (.error e) s'
  | boolean {context : OpenDocument} {b : Bool} : s.current? = some context →
      value = .bool b → context.active.drafts.any Draft.allowsBooleanSchemas →
      NodeRun location value hops s
        (.ok (some (s.store.add location context.draft (.boolean b)).1))
        { s with store := (s.store.add location context.draft (.boolean b)).2 }
  | refused {context : OpenDocument} {severity : Severity} {message : String} :
      s.current? = some context → context.accepts value = false →
      NodeRun location value hops s (.ok none)
        (s.record severity .typeMismatch location.document location.path message)

end

/-! ## Every run is one of these -/

variable {load : NodeLoader} {uri : Uri} {hops : Nat} {s s' : Session}

theorem Searches.trans {s₁ s₂ : Session} {documents documents' : List OpenDocument}
    (h : Searches load uri hops s documents s₁)
    (h' : Searches load uri hops s₁ documents' s₂) :
    Searches load uri hops s (documents ++ documents') s₂ := by
  induction h' with
  | start => simpa using h
  | absent _ hl ih =>
    rw [← List.append_assoc]
    exact .absent ih hl
  | refused _ hl hr ih =>
    rw [← List.append_assoc]
    exact .refused ih hl hr
  | opened _ ho ih => exact .opened ih ho

theorem tryRun_of_buildTarget {document : OpenDocument} {r : Except Stop (Option Schema)}
    (h : Runs (buildTarget load document uri hops) s r s') :
    TryRun load uri hops [document] s r s' := by
  have hlocate : Lookup.locate document.active.idKeys (Location.ofDocument document.uri)
      document.document uri = document.locate uri := rfl
  unfold buildTarget at h
  dsimp only at h
  rw [hlocate] at h
  cases hl : document.locate uri with
  | none =>
    rw [hl] at h
    obtain ⟨rfl, rfl⟩ := runs_pure.mp h
    exact .vain (.absent (.start _) hl)
  | some place =>
    obtain ⟨location, value⟩ := place
    rw [hl] at h
    obtain ⟨s₁, hr, rfl⟩ := runs_between.mp h
    by_cases hnone : r = .ok none
    · subst hnone
      exact .vain (.refused (.start _) hl hr)
    · exact .found (show _ = [] ++ _ :: _ from rfl) (.start _) hl hr hnone

theorem tryRun_of_buildInFirst {documents : List OpenDocument}
    {r : Except Stop (Option Schema)}
    (h : Runs (buildInFirst load uri hops documents) s r s') :
    TryRun load uri hops documents s r s' := by
  induction documents generalizing s with
  | nil =>
    obtain ⟨rfl, rfl⟩ := runs_pure.mp h
    exact .vain (.start _)
  | cons document rest ih =>
    unfold buildInFirst at h
    rcases runs_bind.mp h with ⟨found, s₁, hb, hr⟩ | ⟨e, hb, rfl⟩
    · cases tryRun_of_buildTarget hb with
      | vain hs =>
        cases ih hr with
        | vain hs' => exact .vain (hs.trans hs')
        | found hd hs' hl hload hne =>
          subst hd
          exact .found (show _ = (document :: _) ++ _ :: _ from rfl) (hs.trans hs') hl hload hne
      | found hd hs hl hload hne =>
        cases found with
        | none => exact absurd rfl hne
        | some schema =>
          obtain ⟨rfl, rfl⟩ := runs_pure.mp hr
          obtain ⟨rfl, hd⟩ | ⟨_, _, hd⟩ := List.cons_eq_append_iff.mp hd
          · cases hd
            exact .found (show _ = [] ++ _ :: _ from rfl) hs hl hload hne
          · simp at hd
    · cases tryRun_of_buildTarget hb with
      | found hd hs hl hload hne =>
        obtain ⟨rfl, hd⟩ | ⟨_, _, hd⟩ := List.cons_eq_append_iff.mp hd
        · cases hd
          exact .found (show _ = [] ++ _ :: _ from rfl) hs hl hload hne
        · simp at hd

theorem opens_of_obtain {origin : Location} {document : Json} {s₁ : Session}
    (h : Runs (obtain origin uri) s (.ok document) s₁) :
    Session.Opens uri s (s₁.openDocument uri document).1 (s₁.openDocument uri document).2 := by
  unfold obtain at h
  rw [runs_get_bind] at h
  cases ho : Entries.get? uri s.opened with
  | some found =>
    simp only [ho, Option.map_some, Option.some_or] at h
    obtain ⟨hd, rfl⟩ := runs_pure.mp h
    cases hd
    simp only [Session.openDocument, ho]
    exact .again ho
  | none =>
    simp only [ho, Option.map_none, Option.none_or] at h
    cases hl : s.documents.loaded? uri with
    | some loaded =>
      simp only [hl] at h
      obtain ⟨hd, rfl⟩ := runs_pure.mp h
      cases hd
      exact .loaded ho hl
    | none =>
      simp only [hl] at h
      cases hf : s.documents.fetch? uri with
      | some fetched =>
        obtain ⟨fetched, documents⟩ := fetched
        simp only [hf] at h
        rw [runs_set_bind] at h
        obtain ⟨hd, rfl⟩ := runs_pure.mp h
        cases hd
        exact .fetched ho hl hf
      | none =>
        simp only [hf] at h
        cases (runs_fatal.mp h).1

theorem remote?_of_obtain {origin : Location} {e : Stop} {s₁ : Session}
    (h : Runs (obtain origin uri) s (.error e) s₁) :
    s.remote? uri = none ∧ e = .fatal ∧ ∃ message,
      s₁ = s.record .error .documentNotFound origin.document origin.path message := by
  unfold obtain at h
  rw [runs_get_bind] at h
  cases ho : Entries.get? uri s.opened with
  | some found =>
    simp only [ho, Option.map_some, Option.some_or] at h
    cases (runs_pure.mp h).1
  | none =>
    simp only [ho, Option.map_none, Option.none_or] at h
    cases hl : s.documents.loaded? uri with
    | some loaded =>
      simp only [hl] at h
      cases (runs_pure.mp h).1
    | none =>
      simp only [hl] at h
      cases hf : s.documents.fetch? uri with
      | some fetched =>
        simp only [hf] at h
        rw [runs_set_bind] at h
        cases (runs_pure.mp h).1
      | none =>
        simp only [hf] at h
        obtain ⟨he, rfl⟩ := runs_fatal.mp h
        cases he
        exact ⟨by simp [Session.remote?, ho, hl, hf], rfl, _, rfl⟩

theorem chaseRun_of_runs {origin : Location} {r : Except Stop Schema}
    (h : Runs (chase load origin uri hops) s r s') : ChaseRun load origin uri hops s r s' := by
  unfold chase at h
  rw [runs_get_bind] at h
  rcases runs_bind.mp h with ⟨found, s₁, hb, h⟩ | ⟨e, hb, rfl⟩
  · cases tryRun_of_buildInFirst hb with
    | found hd hs hl hload hne =>
      cases found with
      | none => exact absurd rfl hne
      | some target =>
        obtain ⟨rfl, rfl⟩ := runs_pure.mp h
        obtain ⟨rest, hc⟩ := prefix_candidates s.nearby s.remote? uri
        exact .reached (.start s) (by rw [← hc, hd, List.append_assoc, List.cons_append]) hs hl
          hload
    | vain hs =>
      dsimp only at h
      split at h
      · rename_i hnear
        obtain ⟨rfl, rfl⟩ := runs_fatal.mp h
        refine .lost (.start s) ?_ (Or.inl rfl)
        rwa [candidates, if_pos hnear]
      · rename_i hnear
        rcases runs_bind.mp h with ⟨document, s₂, ho, h⟩ | ⟨e, ho, rfl⟩
        · rw [runs_modifyGet_bind] at h
          have hopens := opens_of_obtain ho
          have hs₂ := hs.opened hopens
          have hc : candidates s.nearby s₁.remote? uri =
              s.nearby ++ [(s₂.openDocument uri.withoutFragment document).1] := by
            rw [candidates, if_neg hnear, hopens.remote?_eq.1, Option.toList_some]
          rcases runs_bind.mp h with ⟨found, s₃, hb, h⟩ | ⟨e, hb, rfl⟩
          · cases tryRun_of_buildTarget hb with
            | vain hs₃ =>
              obtain ⟨rfl, rfl⟩ := runs_fatal.mp h
              refine .lost hs ?_ (Or.inl rfl)
              rw [hc]
              exact hs₂.trans hs₃
            | @found before after last _ _ _ _ _ hd hs₃ hl hload hne =>
              have hlist : candidates s.nearby s₁.remote? uri =
                  (s.nearby ++ before) ++ last :: after := by
                rw [hc, hd, List.append_assoc]
              cases found with
              | none => exact absurd rfl hne
              | some target =>
                obtain ⟨rfl, rfl⟩ := runs_pure.mp h
                exact .reached hs hlist (hs₂.trans hs₃) hl hload
          · cases tryRun_of_buildTarget hb with
            | @found before after last _ _ _ _ _ hd hs₃ hl hload hne =>
              have hlist : candidates s.nearby s₁.remote? uri =
                  (s.nearby ++ before) ++ last :: after := by
                rw [hc, hd, List.append_assoc]
              exact .ends hs hlist (hs₂.trans hs₃) hl hload
        · obtain ⟨hremote, rfl, message, rfl⟩ := remote?_of_obtain ho
          refine .lost hs ?_ (Or.inr rfl)
          rwa [candidates, if_neg hnear, hremote, Option.toList_none, List.append_nil]
  · cases tryRun_of_buildInFirst hb with
    | found hd hs hl hload hne =>
      obtain ⟨rest, hc⟩ := prefix_candidates s.nearby s.remote? uri
      exact .ends (.start s) (by rw [← hc, hd, List.append_assoc, List.cons_append]) hs hl hload

theorem resolveRun_of_runs {location : Location} {written : String} {r : Except Stop Reference}
    (h : Runs (resolve load location written uri hops) s r s') :
    ResolveRun load location written uri hops s r s' := by
  unfold resolve at h
  rw [runs_get_bind] at h
  cases hb : (Entries.get? uri s.built).or (s.cache.get? uri) with
  | some target =>
    simp only [hb] at h
    obtain ⟨rfl, rfl⟩ := runs_pure.mp h
    exact .known hb
  | none =>
    cases hp : Entries.get? uri s.inProgress with
    | some id =>
      simp only [hb, hp] at h
      obtain ⟨rfl, rfl⟩ := runs_pure.mp h
      exact .reading hb hp
    | none =>
      simp only [hb, hp] at h
      have hnew : s.knows uri = false := by
        simp [Session.knows, Entries.contains, hp, (Option.or_eq_none_iff.mp hb).1]
      split at h
      · rename_i hfar
        obtain ⟨rfl, rfl⟩ := runs_fatal.mp h
        exact .tooFar hfar
      · rename_i hfar
        split at h
        · rename_i hmem
          obtain ⟨rfl, rfl⟩ := runs_fatal.mp h
          exact .cycle hnew (by omega) (by simpa using hmem) rfl
        · rename_i hmem
          have hfresh : uri ∉ s.resolving := by simpa using hmem
          rcases runs_bind.mp h with ⟨target, s₁, hc, h⟩ | ⟨e, hc, rfl⟩
          · rw [runs_modify_bind] at h
            obtain ⟨rfl, rfl⟩ := runs_pure.mp h
            obtain ⟨s₂, hchase, rfl⟩ := runs_between.mp hc
            exact .chased hnew hfresh (chaseRun_of_runs hchase)
          · obtain ⟨s₂, hchase, rfl⟩ := runs_between.mp hc
            exact .ends hnew hfresh (chaseRun_of_runs hchase)

theorem referenceRun_of_runs {draft : Draft} {location : Location} {written : String}
    {r : Except Stop Schema}
    (h : Runs (loadReference load draft location written hops) s r s') :
    ReferenceRun load draft location written hops s r s' := by
  unfold loadReference at h
  cases hu : location.resolve written with
  | error fault =>
    simp only [hu] at h
    obtain ⟨rfl, rfl⟩ := runs_fatal.mp h
    exact .malformed hu
  | ok uri =>
    simp only [hu] at h
    rcases runs_bind.mp h with ⟨reference, s₁, hr, h⟩ | ⟨e, hr, rfl⟩
    · obtain ⟨rfl, rfl⟩ := runs_onStore.mp h
      exact .refers hu (resolveRun_of_runs hr)
    · exact .ends hu (resolveRun_of_runs hr)

/-- The identifier of an object, applied if it has one. -/
def identifyObject (keys : List String) (location : Location) (object : List (String × Json)) :
    LoadM (Location × List Uri) :=
  match Lookup.declaredId? keys (.object object) with
  | some id => identify location id
  | none => pure (location, [])

theorem identified_of_runs {keys : List String} {location : Location}
    {object : List (String × Json)} {r : Except Stop (Location × List Uri)}
    (h : Runs (identifyObject keys location object) s r s') :
    ∃ inner declared, r = .ok (inner, declared) ∧
      Identified keys location object s inner declared s' := by
  unfold identifyObject at h
  cases hid : Lookup.declaredId? keys (.object object) with
  | none =>
    simp only [hid] at h
    obtain ⟨rfl, rfl⟩ := runs_pure.mp h
    exact ⟨_, _, rfl, .anonymous hid⟩
  | some id =>
    simp only [hid, identify] at h
    cases hw : location.withId id with
    | ok inner =>
      simp only [hw] at h
      rw [runs_get_bind] at h
      split at h
      · rename_i hknown
        rcases runs_bind.mp h with ⟨_, _, hi, h⟩ | ⟨_, hi, _⟩
        · obtain ⟨_, rfl⟩ := runs_issue.mp hi
          obtain ⟨rfl, rfl⟩ := runs_pure.mp h
          exact ⟨_, _, rfl, .repeated hid hw hknown⟩
        · cases (runs_issue.mp hi).1
      · rename_i hnew
        obtain ⟨rfl, rfl⟩ := runs_pure.mp h
        exact ⟨_, _, rfl, .declared hid hw (by simpa using hnew)⟩
    | error fault =>
      simp only [hw] at h
      rcases runs_bind.mp h with ⟨_, _, hi, h⟩ | ⟨_, hi, _⟩
      · obtain ⟨_, rfl⟩ := runs_malformed.mp hi
        obtain ⟨rfl, rfl⟩ := runs_pure.mp h
        exact ⟨_, _, rfl, .broken hid hw⟩
      · cases (runs_malformed.mp hi).1

theorem loadObject_eq (load : NodeLoader) (context : OpenDocument) (location : Location)
    (object : List (String × Json)) :
    loadObject load context location object =
      identifyObject context.active.idKeys location object >>= fun found => do
        let uris := location.pointerUri :: location.uri :: found.2
        let id ← onStore Store.reserve
        let builder ← between (Session.register id uris) (Session.release id uris)
          (keywordsRun load context found.1 object)
        let schema := Schema.node id found.1 context.draft builder.body
        onStore fun store => ((), store.complete schema)
        modify (Session.finish schema uris)
        return schema := by
  unfold loadObject identifyObject
  cases Lookup.declaredId? context.active.idKeys (.object object) with
  | none => rfl
  | some id => rfl

/-- An object is read by applying its identifier and reading its keywords then. -/
theorem runs_loadObject {context : OpenDocument} {location : Location}
    {object : List (String × Json)} {N : Schema} :
    Runs (loadObject load context location object) s (.ok N) s' ↔ ∃ found s₁ builder s₂,
      Runs (identifyObject context.active.idKeys location object) s (.ok found) s₁ ∧
      Runs (keywordsRun load context found.1 object)
        (s₁.enter (location.pointerUri :: location.uri :: found.2)) (.ok builder) s₂ ∧
      N = .node s₁.store.nodes.size found.1 context.draft builder.body ∧
      s' = s₂.leave N (location.pointerUri :: location.uri :: found.2) := by
  rw [loadObject_eq, runs_bind_ok]
  constructor
  · rintro ⟨found, s₁, hidentify, h⟩
    dsimp only at h
    unfold onStore at h
    rw [runs_modifyGet_bind, runs_bind_ok] at h
    obtain ⟨builder, s₂, hm, h⟩ := h
    obtain ⟨s₃, hread, rfl⟩ := runs_between.mp hm
    rw [runs_modifyGet_bind, runs_modify_bind] at h
    obtain ⟨hN, rfl⟩ := runs_pure.mp h
    cases hN
    exact ⟨found, s₁, builder, s₃, hidentify, hread, rfl, rfl⟩
  · rintro ⟨found, s₁, builder, s₂, hidentify, hread, rfl, rfl⟩
    refine ⟨found, s₁, hidentify, ?_⟩
    dsimp only
    unfold onStore
    rw [runs_modifyGet_bind, runs_bind_ok]
    refine ⟨builder, _, runs_between.mpr ⟨s₂, hread, rfl⟩, ?_⟩
    rw [runs_modifyGet_bind, runs_modify_bind]
    exact runs_pure.mpr ⟨rfl, rfl⟩

theorem objectRun_of_runs {context : OpenDocument} {location : Location}
    {object : List (String × Json)} {r : Except Stop Schema}
    (h : Runs (loadObject load context location object) s r s') :
    ObjectRun load context location object s r s' := by
  rw [loadObject_eq] at h
  rcases runs_bind.mp h with ⟨found, s₁, hi, h⟩ | ⟨e, hi, rfl⟩
  · obtain ⟨inner, declared, hfound, hid⟩ := identified_of_runs hi
    cases hfound
    dsimp only at h
    unfold onStore at h
    rw [runs_modifyGet_bind] at h
    rcases runs_bind.mp h with ⟨builder, s₂, hm, h⟩ | ⟨e, hm, rfl⟩
    · obtain ⟨s₃, hread, rfl⟩ := runs_between.mp hm
      rw [runs_modifyGet_bind, runs_modify_bind] at h
      obtain ⟨rfl, rfl⟩ := runs_pure.mp h
      exact .finished hid hread
    · obtain ⟨s₃, hread, rfl⟩ := runs_between.mp hm
      exact .ends hid hread
  · obtain ⟨_, _, hfound, _⟩ := identified_of_runs hi
    cases hfound

theorem nodeRun_of_runs {location : Location} {value : Json} {r : Except Stop (Option Schema)}
    (h : Runs (loadWith load location value hops) s r s') :
    NodeRun load location value hops s r s' := by
  unfold loadWith at h
  rw [runs_get_bind] at h
  cases hc : s.current? with
  | none =>
    simp only [hc] at h
    obtain ⟨rfl, rfl⟩ := runs_pure.mp h
    exact .outside hc
  | some context =>
    simp only [hc] at h
    cases value with
    | object object =>
      simp only at h
      rw [runs_get_bind] at h
      cases hb : Entries.get? location.pointerUri s.built with
      | some schema =>
        simp only [hb] at h
        obtain ⟨rfl, rfl⟩ := runs_pure.mp h
        exact .known hc rfl hb
      | none =>
        cases hr : Entries.get? "$ref" object with
        | none =>
          simp only [hb, hr] at h
          have hmap : Runs (some <$> loadObject load context location object) s r s' := by
            rw [map_eq_pure_bind]
            exact h
          rcases runs_map.mp hmap with ⟨schema, ho, rfl⟩ | ⟨e, ho, rfl⟩
          · exact .object hc rfl hb hr (objectRun_of_runs ho)
          · exact .objectEnds hc rfl hb hr (objectRun_of_runs ho)
        | some reference =>
          cases reference with
          | string written =>
            simp only [hb, hr] at h
            have hmap : Runs (some <$> loadReference load context.draft location written hops)
                s r s' := by
              rw [map_eq_pure_bind]
              exact h
            rcases runs_map.mp hmap with ⟨schema, ho, rfl⟩ | ⟨e, ho, rfl⟩
            · exact .reference hc rfl hb hr (referenceRun_of_runs ho)
            · exact .referenceEnds hc rfl hb hr (referenceRun_of_runs ho)
          | null | bool | number | array | object =>
            simp only [hb, hr] at h
            obtain ⟨rfl, rfl⟩ := runs_fatal.mp h
            exact .badReference hc rfl hr rfl
    | bool b =>
      simp only at h
      split at h
      · rename_i hallowed
        rcases runs_bind.mp h with ⟨schema, s₁, ha, h⟩ | ⟨e, ha, _⟩
        · obtain ⟨hs, rfl⟩ := runs_onStore.mp ha
          cases hs
          obtain ⟨rfl, rfl⟩ := runs_pure.mp h
          exact .boolean hc rfl hallowed
        · cases (runs_onStore.mp ha).1
      · rename_i hallowed
        rcases runs_bind.mp h with ⟨_, s₁, hm, h⟩ | ⟨e, hm, _⟩
        · obtain ⟨_, rfl⟩ := runs_malformed.mp hm
          obtain ⟨rfl, rfl⟩ := runs_pure.mp h
          exact .refused hc (by simpa [OpenDocument.accepts] using hallowed)
        · cases (runs_malformed.mp hm).1
    | null | number | string | array =>
      simp only at h
      rcases runs_bind.mp h with ⟨_, s₁, hm, h⟩ | ⟨e, hm, _⟩
      · obtain ⟨_, rfl⟩ := runs_malformed.mp hm
        obtain ⟨rfl, rfl⟩ := runs_pure.mp h
        exact .refused hc rfl
      · cases (runs_malformed.mp hm).1

end Loading
end SchemaAtlas
