import SchemaAtlas.Loading
import SchemaAtlas.Proofs.Loading.Position

/-!
# Requests for schemas

A request names a document, gives it, or gives its text. It is answered from the cache, or
it fails for want of a document, or it starts a load. `Request.load?` says which load, and
`run_of_load?` that the request comes to what the load does.
-/

namespace SchemaAtlas

/-- What a cache holds after a table was added is an entry of the table, or was there. -/
theorem Cache.get?_insertAll {table : List (Uri × Schema)} {c : Cache} {uri : Uri} {t : Schema}
    (h : (c.insertAll table).get? uri = some t) :
    (∃ other, (other, t) ∈ table) ∨ c.get? uri = some t := by
  unfold Cache.insertAll at h
  induction table generalizing c with
  | nil => exact Or.inr h
  | cons entry rest ih =>
    obtain ⟨key, schema⟩ := entry
    rcases ih h with ⟨other, hm⟩ | hc
    · exact Or.inl ⟨other, List.mem_cons_of_mem _ hm⟩
    · rw [Cache.get?_insert] at hc
      split at hc
      · cases hc
        exact Or.inl ⟨key, List.mem_cons_self⟩
      · exact Or.inr hc

/-- A document is looked up at its own URI. -/
theorem OpenDocument.locate_self {context : OpenDocument}
    (h : context.uri.withoutFragment = context.uri) :
    context.locate context.uri = some (.ofDocument context.uri, context.document) := by
  have hnone : context.uri.fragment = none := by
    rw [← h]
    rfl
  have hnormal : context.uri.normalized = context.uri :=
    Uri.normalized_of_fragment_ne (by simp [hnone])
  have hroot : (Location.ofDocument context.uri).document = context.uri := hnormal
  simp only [locate, Lookup.locate, hnormal, h, hroot, if_true, hnone]

/-- A document that is about to be loaded, and the URI asked for. -/
structure Load where
  policy : Policy
  workspace : Workspace
  uri : Uri
  documentUri : Uri
  document : Json

namespace Load

/-- The document as it is read. -/
def context (l : Load) : OpenDocument := l.policy.openAs l.documentUri l.document

/-- The session in which the schema is read. -/
def session (l : Load) : Session :=
  let s := Session.new l.policy l.workspace.cache l.workspace.documents l.workspace.store
  (s.openDocument l.documentUri l.document).2.push l.context

/-- The reading of the schema that is asked for. -/
def reading (l : Load) (start : Location × Json) : LoadM (Option Schema) :=
  Loading.loadNode l.workspace.stepLimit start.1 start.2 0

/-- What the load comes to. -/
def run (l : Load) : Except Failure (Schema × Report) × Workspace :=
  match l.context.locate l.uri with
  | none => (.error (.unresolvedReference l.uri), l.workspace)
  | some start =>
    let (outcome, s) := (ExceptT.run (l.reading start)).run l.session
    Workspace.conclude l.uri outcome s

/-- The position that a load begins with. -/
def start? (l : Load) : Option Position :=
  (l.context.locate l.uri).map fun start => ⟨l.context, start.1, start.2⟩

/-- What references are looked up in. -/
def library (l : Load) : Library := ⟨l.context, l.session.remote?⟩

/-- Nothing has been read when the reading begins. -/
theorem session_eq (l : Load) : l.session =
    { Session.new l.policy l.workspace.cache l.workspace.documents l.workspace.store with
      stack := [l.context], report := l.session.report, documents := l.session.documents,
      opened := l.session.opened } := by
  have hidle := Session.openDocument_idle (Session.new l.policy l.workspace.cache
    l.workspace.documents l.workspace.store) l.documentUri l.document
  exact congrArg (Session.push l.context) hidle

theorem inside (l : Load) : l.session.Inside l.library l.context where
  current? := rfl
  first := by
    rw [l.session_eq]
    rfl
  remote? := rfl

end Load

/-- What can be asked of a workspace. -/
inductive Request where
  | ofDocument (document : Json)
  | ofText (text : String)
  | named (uri : Uri) (document : Json)
  | ofUri (uri : Uri)

namespace Request

def action (policy : Policy) : Request → WorkspaceM Schema
  | .ofDocument document => Workspace.read policy document
  | .ofText text => Workspace.readText policy text
  | .named uri document => Workspace.readAt policy uri document
  | .ofUri uri => Workspace.loadUri policy uri

/-- The answer to a request, and the workspace after it. -/
def run (request : Request) (policy : Policy) (w : Workspace) :
    Except Failure Schema × Workspace :=
  (ExceptT.run (request.action policy)).run w

/-- The load of a given document, unless the cache has its schema. -/
def loadAt? (policy : Policy) (w : Workspace) (uri : Uri) (document : Json) : Option Load :=
  let uri := uri.withoutFragment.normalized
  if w.cache.contains uri then none
  else
    let registered := w.documents.register uri document
    let documents := match Workspace.alias? policy uri document with
      | some other => registered.register other document
      | none => registered
    some { policy, workspace := { w with documents }, uri, documentUri := uri, document }

/-- The load that a request starts, if it does. -/
def load? (request : Request) (policy : Policy) (w : Workspace) : Option Load :=
  match request with
  | .ofDocument document => loadAt? policy w (documentName document) document
  | .ofText text => (Json.read text).bind fun document =>
    loadAt? policy w (documentName document) document
  | .named uri document => loadAt? policy w uri document
  | .ofUri uri =>
    let uri := uri.normalized
    if w.cache.contains uri then none
    else
      match w.documents.loaded? uri.withoutFragment with
      | some document =>
        some { policy, workspace := w, uri, documentUri := uri.withoutFragment, document }
      | none =>
        (w.documents.fetch? uri.withoutFragment).map fun (document, documents) =>
          { policy, workspace := { w with documents }, uri, documentUri := uri.withoutFragment,
            document }

/-- What a request is answered with when it starts no load. -/
inductive Answer (w : Workspace) : Except Failure Schema → Prop
  | cached {uri : Uri} {schema : Schema} : w.cache.get? uri = some schema → Answer w (.ok schema)
  | failed {failure : Failure} : failure ≠ .exhausted → Answer w (.error failure)

end Request

namespace Load

theorem runs_loadFrom (l : Load) :
    Runs (Workspace.loadFrom l.policy l.uri l.documentUri l.document) l.workspace l.run.1
      l.run.2 := by
  unfold Workspace.loadFrom
  rw [runs_get_bind]
  cases ho : (Session.new l.policy l.workspace.cache l.workspace.documents
      l.workspace.store).openDocument l.documentUri l.document with
  | mk opened session =>
    have hopened : opened = l.context := by
      have h := @Session.openDocument_of_new l.documentUri (Session.new l.policy
        l.workspace.cache l.workspace.documents l.workspace.store) l.document rfl
      rw [ho] at h
      exact h
    have hsession : session.push opened = l.session := by
      rw [hopened, Load.session, ho]
    unfold Load.run
    cases hl : l.context.locate l.uri with
    | none =>
      have hl' : Lookup.locate opened.active.idKeys (Location.ofDocument l.documentUri)
          l.document l.uri = none := by
        rw [hopened]
        exact hl
      simp only [ho, hl']
      exact runs_throw.mpr ⟨rfl, rfl⟩
    | some start =>
      obtain ⟨location, value⟩ := start
      have hl' : Lookup.locate opened.active.idKeys (Location.ofDocument l.documentUri)
          l.document l.uri = some (location, value) := by
        rw [hopened]
        exact hl
      simp only [ho, hl', hsession, Load.reading]
      generalize Loading.loadNode l.workspace.stepLimit location value 0 = x
      change Runs (match (ExceptT.run x).run l.session with
        | (outcome, s) => do
          set (Workspace.conclude l.uri outcome s).2
          MonadExcept.ofExcept (Workspace.conclude l.uri outcome s).1) _ _ _
      rcases (ExceptT.run x).run l.session with ⟨outcome, s⟩
      rw [runs_set_bind]
      exact runs_ofExcept.mpr ⟨rfl, rfl⟩

end Load

namespace Request

variable {policy : Policy} {w : Workspace}

/-- A load works on the cache and the nodes of the workspace. -/
theorem load?_workspace {request : Request} {l : Load} (h : request.load? policy w = some l) :
    l.policy = policy ∧ l.workspace.cache = w.cache ∧ l.workspace.store = w.store := by
  have hnamed : ∀ {uri : Uri} {document : Json}, loadAt? policy w uri document = some l →
      l.policy = policy ∧ l.workspace.cache = w.cache ∧ l.workspace.store = w.store := by
    intro uri document h
    unfold loadAt? at h
    dsimp only at h
    split at h
    · cases h
    · cases h
      exact ⟨rfl, rfl, rfl⟩
  cases request with
  | ofDocument document => exact hnamed h
  | ofText text =>
    obtain ⟨document, _, h⟩ := Option.bind_eq_some_iff.mp h
    exact hnamed h
  | named uri document => exact hnamed h
  | ofUri uri =>
    unfold load? at h
    dsimp only at h
    split at h
    · cases h
    · split at h
      · cases h
        exact ⟨rfl, rfl, rfl⟩
      · obtain ⟨found, _, rfl⟩ := Option.map_eq_some_iff.mp h
        exact ⟨rfl, rfl, rfl⟩

/-- A document that is given is read as a whole. -/
theorem loadAt?_some {uri : Uri} {document : Json} {l : Load}
    (h : loadAt? policy w uri document = some l) :
    l.policy = policy ∧ l.uri = l.documentUri ∧ l.document = document := by
  unfold loadAt? at h
  dsimp only at h
  split at h
  · cases h
  · cases h
    exact ⟨rfl, rfl, rfl⟩

/-- A document has a URI without fragment. -/
theorem load?_documentUri {request : Request} {l : Load} (h : request.load? policy w = some l) :
    l.documentUri.withoutFragment = l.documentUri := by
  have hnamed : ∀ {uri : Uri} {document : Json}, loadAt? policy w uri document = some l →
      l.documentUri.withoutFragment = l.documentUri := by
    intro uri document h
    unfold loadAt? at h
    dsimp only at h
    split at h
    · cases h
    · cases h
      dsimp only
      rw [Uri.normalized_of_fragment_ne (by simp), Uri.withoutFragment_idem]
  cases request with
  | ofDocument document => exact hnamed h
  | ofText text =>
    obtain ⟨document, _, h⟩ := Option.bind_eq_some_iff.mp h
    exact hnamed h
  | named uri document => exact hnamed h
  | ofUri uri =>
    unfold load? at h
    dsimp only at h
    split at h
    · cases h
    · split at h
      · cases h
        exact Uri.withoutFragment_idem _
      · obtain ⟨found, _, rfl⟩ := Option.map_eq_some_iff.mp h
        exact Uri.withoutFragment_idem _

/-- The document of a load is loaded under its URI. -/
theorem load?_loaded {request : Request} {l : Load} (h : request.load? policy w = some l) :
    l.workspace.documents.loaded? l.documentUri = some l.document := by
  have hnamed : ∀ {uri : Uri} {document : Json}, loadAt? policy w uri document = some l →
      l.workspace.documents.loaded? l.documentUri = some l.document := by
    intro uri document h
    unfold loadAt? at h
    dsimp only at h
    split at h
    · cases h
    · cases h
      dsimp only
      split
      · rw [Documents.loaded?_register, Documents.loaded?_register, if_pos rfl, ite_self]
      · rw [Documents.loaded?_register, if_pos rfl]
  cases request with
  | ofDocument document => exact hnamed h
  | ofText text =>
    obtain ⟨document, _, h⟩ := Option.bind_eq_some_iff.mp h
    exact hnamed h
  | named uri document => exact hnamed h
  | ofUri uri =>
    unfold load? at h
    dsimp only at h
    split at h
    · cases h
    · split at h
      · rename_i document hl
        cases h
        exact hl
      · obtain ⟨found, hf, rfl⟩ := Option.map_eq_some_iff.mp h
        obtain ⟨document, _, rfl⟩ := Option.map_eq_some_iff.mp hf
        rw [Documents.loaded?_register, if_pos rfl]

theorem runs_readReporting_of_load {uri : Uri} {document : Json} {l : Load}
    (h : loadAt? policy w uri document = some l) :
    Runs (Workspace.readReporting policy uri document) w l.run.1 l.run.2 := by
  unfold Workspace.readReporting
  rw [runs_get_bind]
  unfold loadAt? at h
  cases hc : w.cache.get? uri.withoutFragment.normalized with
  | some schema =>
    simp only [Cache.contains, hc, Option.isSome_some, if_true] at h
    cases h
  | none =>
    simp only [Cache.contains, hc, Option.isSome_none, Bool.false_eq_true, if_false] at h
    simp only
    rw [runs_modify_bind]
    have hl := (Option.some.inj h).symm
    cases ha : Workspace.alias? policy uri.withoutFragment.normalized document with
    | some other =>
      rw [ha] at hl
      simp only
      rw [runs_modify_bind]
      have hload := Load.runs_loadFrom l
      rw [hl] at hload ⊢
      exact hload
    | none =>
      rw [ha] at hl
      have hload := Load.runs_loadFrom l
      rw [hl] at hload ⊢
      exact hload

theorem runs_readReporting_of_none {uri : Uri} {document : Json}
    (h : loadAt? policy w uri document = none) :
    ∃ schema, w.cache.get? uri.withoutFragment.normalized = some schema ∧
      Runs (Workspace.readReporting policy uri document) w (.ok (schema, .empty)) w := by
  unfold Workspace.readReporting
  unfold loadAt? at h
  cases hc : w.cache.get? uri.withoutFragment.normalized with
  | some schema =>
    refine ⟨schema, rfl, ?_⟩
    rw [runs_get_bind]
    simp only [hc]
    exact runs_pure.mpr ⟨rfl, rfl⟩
  | none =>
    simp only [Cache.contains, hc, Option.isSome_none, Bool.false_eq_true, if_false] at h
    cases h

/-- A request comes to what its load does. -/
theorem run_of_load? {request : Request} {l : Load} (h : request.load? policy w = some l) :
    request.run policy w = (l.run.1.map Prod.fst, l.run.2) := by
  cases request with
  | ofDocument document => exact (runs_readReporting_of_load h).returning _
  | ofText text =>
    obtain ⟨document, hd, h⟩ := Option.bind_eq_some_iff.mp h
    unfold Request.run Request.action Workspace.readText
    simp only [hd]
    exact (runs_readReporting_of_load h).returning _
  | named uri document => exact (runs_readReporting_of_load h).returning _
  | ofUri uri =>
    change Runs (Workspace.loadUri policy uri) w (l.run.1.map Prod.fst) l.run.2
    simp only [load?] at h
    unfold Workspace.loadUri
    rw [runs_get_bind]
    cases hc : w.cache.get? uri.normalized with
    | some schema =>
      simp only [Cache.contains, hc, Option.isSome_some, if_true] at h
      cases h
    | none =>
      simp only [Cache.contains, hc, Option.isSome_none, Bool.false_eq_true, if_false] at h
      cases hd : w.documents.loaded? uri.normalized.withoutFragment with
      | some document =>
        rw [hd] at h
        have hl := (Option.some.inj h).symm
        have hload := (Load.runs_loadFrom l).returning Prod.fst
        rw [hl] at hload ⊢
        simp only [hd]
        exact hload
      | none =>
        rw [hd] at h
        obtain ⟨found, hf, h⟩ := Option.map_eq_some_iff.mp h
        have hload := (Load.runs_loadFrom l).returning Prod.fst
        rw [← h] at hload ⊢
        simp only [hd, hf]
        rw [runs_set_bind]
        exact hload

/-- A request that its load answers with a schema. -/
theorem run_ok_of_load? {request : Request} {l : Load} {s : Schema} {w' : Workspace}
    (hl : request.load? policy w = some l) (h : request.run policy w = (.ok s, w')) :
    ∃ report, l.run.1 = .ok (s, report) ∧ l.run.2 = w' := by
  rw [run_of_load? hl] at h
  obtain ⟨hanswer, hw⟩ := Prod.ext_iff.mp h
  cases hrun : l.run.1 with
  | error failure =>
    simp only [hrun] at hanswer
    cases hanswer
  | ok result =>
    simp only [hrun] at hanswer
    cases hanswer
    exact ⟨result.2, rfl, hw⟩

/-- A URI without a load is in the cache, or nowhere. -/
theorem runs_loadUri_of_none {uri : Uri} (h : load? (.ofUri uri) policy w = none) :
    Runs (Workspace.loadUri policy uri) w
      (match w.cache.get? uri.normalized with
        | some schema => .ok schema
        | none => .error (.documentNotFound uri.normalized.withoutFragment)) w := by
  simp only [load?] at h
  unfold Workspace.loadUri
  rw [runs_get_bind]
  cases hc : w.cache.get? uri.normalized with
  | some schema => exact runs_pure.mpr ⟨rfl, rfl⟩
  | none =>
    simp only [Cache.contains, hc, Option.isSome_none, Bool.false_eq_true, if_false] at h
    cases hd : w.documents.loaded? uri.normalized.withoutFragment with
    | some document =>
      rw [hd] at h
      cases h
    | none =>
      rw [hd] at h
      simp only [hd, Option.map_eq_none_iff.mp h]
      exact runs_throw.mpr ⟨rfl, rfl⟩

/-- A request without a load is answered at once. -/
theorem answer_of_load?_none {request : Request} (h : request.load? policy w = none) :
    ∃ r, Answer w r ∧ request.run policy w = (r, w) := by
  have hnamed : ∀ {uri : Uri} {document : Json}, loadAt? policy w uri document = none →
      ∃ r, Answer w r ∧
        (ExceptT.run (Workspace.readAt policy uri document)).run w = (r, w) := by
    intro uri document hnone
    obtain ⟨schema, hc, hr⟩ := runs_readReporting_of_none hnone
    exact ⟨.ok schema, .cached hc, hr.returning Prod.fst⟩
  cases request with
  | ofDocument document => exact hnamed h
  | ofText text =>
    change ∃ r, Answer w r ∧ (ExceptT.run (Workspace.readText policy text)).run w = (r, w)
    unfold Workspace.readText
    cases hd : Json.read text with
    | none => exact ⟨_, .failed (by simp), rfl⟩
    | some document =>
      simp only [load?, hd, Option.bind_some] at h
      exact hnamed h
  | ofUri uri =>
    refine ⟨_, ?_, runs_loadUri_of_none h⟩
    cases hc : w.cache.get? uri.normalized with
    | some schema => exact .cached hc
    | none => exact .failed (by simp)
  | named uri document => exact hnamed h

/-- The policy plays no part in the answer to a request without a load. -/
theorem run_congr_of_none {request : Request} {policy' : Policy}
    (h : request.load? policy w = none) (h' : request.load? policy' w = none) :
    request.run policy w = request.run policy' w := by
  have hnamed : ∀ {uri : Uri} {document : Json}, loadAt? policy w uri document = none →
      loadAt? policy' w uri document = none →
      (ExceptT.run (Workspace.readAt policy uri document)).run w =
        (ExceptT.run (Workspace.readAt policy' uri document)).run w := by
    intro uri document h h'
    obtain ⟨schema, hc, hr⟩ := runs_readReporting_of_none h
    obtain ⟨schema', hc', hr'⟩ := runs_readReporting_of_none h'
    cases hc.symm.trans hc'
    exact (hr.returning Prod.fst).trans (hr'.returning Prod.fst).symm
  cases request with
  | ofDocument document => exact hnamed h h'
  | ofText text =>
    change (ExceptT.run (Workspace.readText policy text)).run w =
      (ExceptT.run (Workspace.readText policy' text)).run w
    unfold Workspace.readText
    cases hd : Json.read text with
    | none => rfl
    | some document =>
      simp only [load?, hd, Option.bind_some] at h h'
      exact hnamed h h'
  | named uri document => exact hnamed h h'
  | ofUri uri => exact (runs_loadUri_of_none h).trans (runs_loadUri_of_none h').symm

/-- A test that some load passes is passed by the load that the request starts. -/
theorem exists_of_any_load? {request : Request} {test : Load → Bool}
    (h : (request.load? policy w).any test = true) :
    ∃ l, request.load? policy w = some l ∧ test l = true := by
  cases hl : request.load? policy w with
  | none =>
    rw [hl] at h
    cases h
  | some l =>
    rw [hl] at h
    exact ⟨l, rfl, h⟩

/-- A test that some answer passes is passed by the schema that the request is answered with. -/
theorem exists_of_any_run {request : Request} {test : Schema → Bool}
    (h : (request.run policy w).1.toOption.any test = true) :
    ∃ s w', request.run policy w = (.ok s, w') ∧ test s = true := by
  rcases hr : request.run policy w with ⟨failure | s, w'⟩
  · rw [hr] at h
    cases h
  · rw [hr] at h
    exact ⟨s, w', rfl, h⟩

/-- The report with which the document of a request is refused. -/
def refusal? (request : Request) (policy : Policy) (w : Workspace) : Option Report :=
  match (request.run policy w).1 with
  | .error (.loading report) => some report
  | _ => none

/-- A test that some report passes is passed by the report that the request fails with. -/
theorem exists_of_any_refusal? {request : Request} {test : Report → Bool}
    (h : (request.refusal? policy w).any test = true) :
    ∃ report w', request.run policy w = (.error (.loading report), w') ∧ test report = true := by
  unfold refusal? at h
  rcases hr : request.run policy w with ⟨failure | s, w'⟩
  · rw [hr] at h
    cases failure with
    | loading report => exact ⟨report, w', rfl, h⟩
    | _ => cases h
  · rw [hr] at h
    cases h

end Request

namespace Load

/-- A load that gives a schema has read it without an error; the nodes that it finished go
to the cache. -/
theorem run_ok {l : Load} {schema : Schema} {report : Report} (h : l.run.1 = .ok (schema, report)) :
    ∃ start s, l.context.locate l.uri = some start ∧
      Runs (l.reading start) l.session (.ok (some schema)) s ∧ s.report = report ∧
      report.hasErrors = false ∧
      l.run.2 = { documents := s.documents, cache := (s.cache.insertAll s.built).insert l.uri schema, store := s.store } := by
  unfold Load.run at h ⊢
  cases hl : l.context.locate l.uri with
  | none =>
    rw [hl] at h
    cases h
  | some start =>
    rw [hl] at h
    cases hr : (ExceptT.run (l.reading start)).run l.session with
    | mk outcome s =>
      simp only [hr] at h ⊢
      unfold Workspace.conclude at h ⊢
      cases outcome with
      | error e => cases e <;> cases h
      | ok found =>
        cases found with
        | none => cases h
        | some found =>
          simp only at h ⊢
          split at h
          · cases h
          · rename_i herrors
            cases h
            refine ⟨start, s, rfl, hr, rfl, by simpa using herrors, ?_⟩
            simp [herrors]

/-- What a load reports when the reading begins. -/
theorem session_report (l : Load) :
    ∀ issue ∈ l.session.report.issues, issue.kind = .unknownMetaSchema := by
  intro issue hi
  exact (Session.openDocument_report _ l.documentUri l.document issue hi).resolve_left
    List.not_mem_nil

/-- A load that fails with a report has found no schema, or recorded an error. -/
theorem run_loading {l : Load} {report : Report} (h : l.run.1 = .error (.loading report)) :
    ∃ start outcome s, l.context.locate l.uri = some start ∧
      Runs (l.reading start) l.session outcome s ∧ outcome ≠ .error .exhausted ∧
      ∀ issue ∈ report.issues, issue ∈ s.report.issues ∨ issue.kind = .typeMismatch := by
  unfold Load.run at h
  cases hl : l.context.locate l.uri with
  | none =>
    rw [hl] at h
    cases h
  | some start =>
    rw [hl] at h
    cases hr : (ExceptT.run (l.reading start)).run l.session with
    | mk outcome s =>
      simp only [hr] at h
      unfold Workspace.conclude at h
      refine ⟨start, outcome, s, rfl, hr, ?_⟩
      cases outcome with
      | error e =>
        cases e with
        | fatal =>
          cases h
          exact ⟨by simp, fun issue hi => Or.inl hi⟩
        | exhausted => cases h
      | ok found =>
        refine ⟨by simp, ?_⟩
        cases found with
        | none =>
          cases h
          intro issue hi
          rcases List.mem_append.mp hi with hi | hi
          · exact Or.inl hi
          · cases List.mem_singleton.mp hi
            exact Or.inr rfl
        | some schema =>
          simp only at h
          split at h
          · cases h
            exact fun issue hi => Or.inl hi
          · cases h

/-- A load that fails leaves the cache as it was when the reading ended. -/
theorem run_error {l : Load} {failure : Failure} (h : l.run.1 = .error failure) :
    l.run.2 = l.workspace ∨ ∃ start outcome s, l.context.locate l.uri = some start ∧
      Runs (l.reading start) l.session outcome s ∧
      l.run.2 = { documents := s.documents, cache := s.cache, store := s.store } := by
  unfold Load.run at h ⊢
  cases hl : l.context.locate l.uri with
  | none => exact Or.inl rfl
  | some start =>
    rw [hl] at h
    cases hr : (ExceptT.run (l.reading start)).run l.session with
    | mk outcome s =>
      refine Or.inr ⟨start, outcome, s, rfl, hr, ?_⟩
      simp only [hr] at h ⊢
      unfold Workspace.conclude at h ⊢
      cases outcome with
      | error e => cases e <;> rfl
      | ok found =>
        cases found with
        | none => rfl
        | some found =>
          simp only at h ⊢
          split at h
          · rename_i herrors
            simp [herrors]
          · cases h

end Load

end SchemaAtlas
