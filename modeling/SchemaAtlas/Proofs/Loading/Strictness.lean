import SchemaAtlas.Proofs.Loading.Request
import SchemaAtlas.Proofs.Loading.Twins

/-!
# What strictness changes

Reading a node goes the same way under a strict and a lenient policy until malformed input or
a member that is no keyword comes up. So a strict load succeeds just when the lenient one
does without having met either, and then both have the same schema, the same report and the
same workspace in the end.
-/

namespace SchemaAtlas

namespace Loading

open LoadM Twins

variable {n : Nat}

theorem twins_identifyObject {keys : List String} {location : Location}
    {object : List (String × Json)} : PlainTwins n (identifyObject keys location object) := by
  unfold identifyObject
  cases Lookup.declaredId? keys (.object object) with
  | none => exact .pure id
  | some name =>
    simp only [identify]
    cases location.withId name with
    | ok inner =>
      refine .get_bind (fun _ => rfl) fun s => ?_
      split
      · refine (Twins.issue ?_).bind fun _ => .pure id
        change (!List.isSuffixOf _ _) = false
        rw [isSuffixOf_declared]
        rfl
      · exact .pure id
    | error fault =>
      refine (Twins.malformed ?_).bind fun _ => .pure id
      change (!List.isSuffixOf _ (_ ++ fault.message).toList) = true
      rw [isSuffixOf_fault]
      rfl

section

variable {load : NodeLoader} (hframed : Framed load)
  (hload : ∀ location value hops, PlainTwins n (load location value hops))

/-- Reading an object once its identifier has been applied. -/
def readObject (load : NodeLoader) (context : OpenDocument) (location inner : Location)
    (declared : List Uri) (object : List (String × Json)) : LoadM Schema := do
  let uris := location.pointerUri :: location.uri :: declared
  let id ← onStore Store.reserve
  let builder ← between (Session.register id uris) (Session.release id uris)
    (keywordsRun load context inner object)
  let schema := Schema.node id inner context.draft builder.body
  onStore fun store => ((), store.complete schema)
  modify (Session.finish schema uris)
  return schema

/-- What becomes of an object whose keywords have been read. -/
theorem runs_readObject {context : OpenDocument} {location inner : Location}
    {declared : List Uri} {object : List (String × Json)} {s s' : Session}
    {r : Except Stop Schema}
    (h : Runs (readObject load context location inner declared object) s r s') :
    ∃ outcome s₁, Runs (keywordsRun load context inner object)
        (s.enter (location.pointerUri :: location.uri :: declared)) outcome s₁ ∧
      match outcome with
      | .ok builder =>
        let schema := Schema.node s.store.nodes.size inner context.draft builder.body
        r = .ok schema ∧ s' = s₁.leave schema (location.pointerUri :: location.uri :: declared)
      | .error e => r = .error e ∧
        s' = s₁.release s.store.nodes.size (location.pointerUri :: location.uri :: declared) := by
  unfold readObject onStore at h
  dsimp only at h
  rw [runs_modifyGet_bind] at h
  rcases runs_bind.mp h with ⟨builder, s₂, hm, h⟩ | ⟨e, hm, rfl⟩
  · obtain ⟨s₁, hread, rfl⟩ := runs_between.mp hm
    rw [runs_modifyGet_bind, runs_modify_bind] at h
    obtain ⟨rfl, rfl⟩ := runs_pure.mp h
    exact ⟨.ok builder, s₁, hread, rfl, rfl⟩
  · obtain ⟨s₁, hread, rfl⟩ := runs_between.mp hm
    exact ⟨.error e, s₁, hread, rfl, rfl⟩

theorem blemished_of_enter {uris : List Uri} {s : Session} (h : (s.enter uris).Blemished n) :
    s.Blemished n := by
  refine h.imp_right ?_
  rintro ⟨id, schema, hid, hs, he⟩
  exact ⟨id, schema, hid, (Store.node?_reserve s.store id).symm.trans hs, he⟩

theorem blemished_of_leave {uris : List Uri} {s : Session} {schema : Schema}
    (hschema : schema.extra = []) (h : (s.leave schema uris).Blemished n) : s.Blemished n := by
  refine h.imp_right ?_
  rintro ⟨id, known, hid, hs, he⟩
  have hs : (s.store.complete schema).node? id = some known := hs
  by_cases heq : id = schema.id
  · have hlt : schema.id < s.store.nodes.size := by
      have hlt := Store.lt_size_of_node? hs
      rwa [Store.size_complete, heq] at hlt
    rw [heq, Store.node?_complete _ _ hlt] at hs
    cases hs
    exact absurd hschema he
  · rw [Store.node?_complete_of_ne _ heq] at hs
    exact ⟨id, known, hid, hs, he⟩

include hframed hload

theorem twins_readObject {context : OpenDocument} {location inner : Location}
    {declared : List Uri} {object : List (String × Json)} :
    PlainTwins n (readObject load context location inner declared object) where
  grown := by
    intro s r s' h
    obtain ⟨outcome, s₁, hr, hend⟩ := runs_readObject h
    have hframe := (hframed.keywords hr).1
    cases outcome with
    | ok builder =>
      obtain ⟨-, rfl⟩ := hend
      exact (hframe.leave rfl).grown
    | error e =>
      obtain ⟨-, rfl⟩ := hend
      exact hframe.release.grown
  coupled := by
    intro s r s' r' t hn hs h h'
    obtain ⟨outcome, s₁, hr, hend⟩ := runs_readObject h
    obtain ⟨outcome', t₁, hr', hend'⟩ := runs_readObject h'
    have htwins : Twins n (fun b => b.extra ≠ []) (keywordsRun load context inner object) :=
      Digest.twins_members (fun location value => hload location value 0) rfl
    have hsize : n ≤ (s.enter (location.pointerUri :: location.uri :: declared)).store.nodes.size :=
      Nat.le_trans hn (Store.grows_reserve s.store).size
    have hframe := (hframed.keywords hr).1
    have hframe' : Session.Frame (s.lenient.enter _) t₁ := (hframed.keywords hr').1
    have hentered : (s.enter (location.pointerUri :: location.uri :: declared)).Blemished n →
        s.Blemished n := blemished_of_enter
    cases htwins.coupled hsize hs hr hr' with
    | agree heq ht hnot hclean =>
      subst heq ht
      cases outcome' with
      | error e =>
        obtain ⟨rfl, rfl⟩ := hend
        obtain ⟨rfl, rfl⟩ := hend'
        exact .agree rfl rfl (fun _ h => by cases h) fun h => hentered (hclean h)
      | ok builder =>
        obtain ⟨rfl, rfl⟩ := hend
        obtain ⟨rfl, rfl⟩ := hend'
        refine .agree rfl rfl (fun _ _ => id) fun h => hentered (hclean ?_)
        refine blemished_of_leave ?_ h
        rw [Schema.extra, Schema.body, keywordsRun_body hr]
        exact Decidable.of_not_not (hnot builder rfl)
    | depart herrors hmarked =>
      refine .depart ?_ fun schema heq => Or.inr ?_
      · cases outcome with
        | error e =>
          obtain ⟨-, rfl⟩ := hend
          exact herrors
        | ok builder =>
          obtain ⟨-, rfl⟩ := hend
          exact herrors
      · subst heq
        cases outcome' with
        | error e => cases hend'.1
        | ok builder =>
          obtain ⟨heq, rfl⟩ := hend'
          cases heq
          obtain ⟨hnew, hold⟩ := hframe'.node?_leave
            (show (Schema.node s.store.nodes.size inner context.draft builder.body).id = _ from rfl)
          rcases hmarked builder rfl with hkept | ⟨issue, hi, hm⟩ | ⟨id, known, hid, hk, he⟩
          · refine Or.inr ⟨_, _, hn, hnew, ?_⟩
            rw [Schema.extra, Schema.body, keywordsRun_body hr']
            exact hkept
          · exact Or.inl ⟨issue, hi, hm⟩
          · exact Or.inr ⟨id, known, hid, hold hk, he⟩

theorem twins_loadObject {context : OpenDocument} {location : Location}
    {object : List (String × Json)} :
    PlainTwins n (loadObject load context location object) := by
  rw [loadObject_eq]
  exact twins_identifyObject.bind fun found => twins_readObject hframed hload

omit hframed

theorem twins_buildTarget {document : OpenDocument} {uri : Uri} {hops : Nat} :
    PlainTwins n (buildTarget load document uri hops) := by
  unfold buildTarget
  dsimp only
  split
  · exact .between (Session.neutral_push document) Session.neutral_pop (hload _ _ _)
  · exact .pure id

theorem twins_buildInFirst {uri : Uri} {hops : Nat} {documents : List OpenDocument} :
    PlainTwins n (buildInFirst load uri hops documents) := by
  induction documents with
  | nil => exact .pure id
  | cons document rest ih =>
    refine (twins_buildTarget hload).bind fun found => ?_
    cases found with
    | some schema => exact .pure id
    | none => exact ih

omit hload

theorem neutral_documents (documents : Documents) :
    Session.Neutral fun s => { s with documents } :=
  ⟨fun _ => rfl, fun _ => rfl, fun _ => rfl, fun _ => rfl⟩

theorem twins_obtain {location : Location} {uri : Uri} :
    PlainTwins n (obtain location uri) := by
  refine .of_runs fun s => ?_
  cases hd : ((Entries.get? uri s.opened).map OpenDocument.document).or
      (s.documents.loaded? uri) with
  | some document =>
    refine ⟨pure document, .pure id, fun hr => ?_, fun hr => ?_⟩
    · have hr := runs_get_bind.mp hr
      simpa only [hd] using hr
    · have hr := runs_get_bind.mp hr
      simpa only [Session.lenient, hd] using hr
  | none =>
    cases hf : s.documents.fetch? uri with
    | none =>
      refine ⟨LoadM.fatal .documentNotFound location
        s!"Document not found: {uri.withoutFragment}", .fatal rfl, fun hr => ?_, fun hr => ?_⟩
      · have hr := runs_get_bind.mp hr
        simp only [hd, hf] at hr
        exact hr
      · have hr := runs_get_bind.mp hr
        simp only [Session.lenient, hd, hf] at hr
        exact hr
    | some fetched =>
      obtain ⟨document, documents⟩ := fetched
      refine ⟨do modify fun s : Session => { s with documents }; return document,
        (Twins.modify (neutral_documents documents)).bind fun _ => .pure id,
        fun hr => ?_, fun hr => ?_⟩
      · have hr := runs_get_bind.mp hr
        simp only [hd, hf] at hr
        exact runs_modify_bind.mpr (runs_set_bind.mp hr)
      · have hr := runs_get_bind.mp hr
        simp only [Session.lenient, hd, hf] at hr
        exact runs_modify_bind.mpr (runs_set_bind.mp hr)

theorem draftsOf_lenient (s : Session) (metaSchema : Option String) :
    s.lenient.policy.draftsOf metaSchema = s.policy.draftsOf metaSchema := by
  unfold Policy.draftsOf
  cases metaSchema <;> simp only [Session.lenient]

theorem openDocument_lenient (uri : Uri) (document : Json) (s : Session) :
    Session.openDocument uri document s.lenient =
      ((s.openDocument uri document).1, (s.openDocument uri document).2.lenient) := by
  unfold Session.openDocument
  cases ho : Entries.get? uri s.opened with
  | some found => simp only [Session.lenient, ho]
  | none =>
    have ho' : Entries.get? uri s.lenient.opened = none := ho
    simp only [ho', draftsOf_lenient]
    split <;> rfl

theorem twins_openDocument {uri : Uri} {document : Json} :
    PlainTwins n (modifyGet (Session.openDocument uri document)) where
  grown := by
    intro s r s' h
    obtain ⟨-, rfl⟩ := runs_modifyGet.mp h
    unfold Session.openDocument
    split
    · exact .refl s
    · dsimp only
      split
      · exact ⟨rfl, List.prefix_append _ _, .refl _⟩
      · exact ⟨rfl, List.prefix_refl _, .refl _⟩
  coupled := by
    intro s r s' r' t _ _ h h'
    obtain ⟨rfl, rfl⟩ := runs_modifyGet.mp h
    obtain ⟨rfl, rfl⟩ := runs_modifyGet.mp h'
    rw [openDocument_lenient]
    refine .agree rfl rfl (fun _ _ => id) ?_
    have hidle := Session.openDocument_idle s uri document
    rintro (⟨issue, hi, hm⟩ | hnode)
    · rcases Session.openDocument_report s uri document issue hi with hi | hk
      · exact Or.inl ⟨issue, hi, hm⟩
      · rw [Issue.isMalformed, hk] at hm
        cases hm
    · rw [hidle] at hnode
      exact Or.inr hnode

include hload

theorem twins_chase {location : Location} {uri : Uri} {hops : Nat} :
    PlainTwins n (chase load location uri hops) := by
  unfold chase
  refine .get_bind (fun _ => rfl) fun s => ?_
  refine (twins_buildInFirst hload).bind fun found => ?_
  cases found with
  | some schema => exact .pure id
  | none =>
    dsimp only
    split
    · exact .fatal rfl
    · refine twins_obtain.bind fun document => twins_openDocument.bind fun opened => ?_
      refine (twins_buildTarget hload).bind fun found => ?_
      cases found with
      | some schema => exact .pure id
      | none => exact .fatal rfl

theorem twins_resolve {location : Location} {written : String} {uri : Uri} {hops : Nat} :
    PlainTwins n (resolve load location written uri hops) := by
  unfold resolve
  refine .get_bind (fun _ => rfl) fun s => ?_
  split
  · exact .pure id
  · exact .pure id
  · split
    · exact .fatal rfl
    · split
      · exact .fatal rfl
      · refine (Twins.between (Session.neutral_beginResolving uri)
          (Session.neutral_endResolving uri) (twins_chase hload)).bind fun target => ?_
        exact (Twins.modify (Session.neutral_finish target [uri])).bind fun _ => .pure id

theorem twins_loadReference {draft : Draft} {location : Location} {written : String}
    {hops : Nat} : PlainTwins n (loadReference load draft location written hops) := by
  unfold loadReference
  split
  · exact .fatal rfl
  · exact (twins_resolve hload).bind fun reference => .add fun _ => rfl

include hframed

theorem twins_loadWith {location : Location} {value : Json} {hops : Nat} :
    PlainTwins n (loadWith load location value hops) := by
  unfold loadWith
  refine .get_bind (fun _ => rfl) fun s => ?_
  split
  · exact .pure id
  · split
    · refine .get_bind (fun _ => rfl) fun s => ?_
      split
      · exact .pure id
      · exact (twins_loadReference hload).map
      · exact .fatal rfl
      · exact (twins_loadObject hframed hload).map
    · split
      · exact (Twins.add fun _ => rfl).map
      · exact (Twins.malformed rfl).bind fun _ => .pure id
    · exact (Twins.malformed rfl).bind fun _ => .pure id

end

theorem twins_loadNode (steps : Nat) (location : Location) (value : Json) (hops : Nat) :
    PlainTwins n (loadNode steps location value hops) := by
  induction steps generalizing location value hops with
  | zero => exact .throw .exhausted
  | succ steps ih => exact twins_loadWith (framed_loadNode steps) ih

end Loading

/-! ## Loads -/

/-- The policy with another strictness. -/
def Policy.strictly (policy : Policy) (strict : Bool) : Policy := { policy with strict }

theorem Policy.draftsOf_strictly (policy : Policy) (strict : Bool) (metaSchema : Option String) :
    (policy.strictly strict).draftsOf metaSchema = policy.draftsOf metaSchema := by
  unfold draftsOf
  cases metaSchema <;> simp only [strictly]

theorem Policy.openAs_strictly (policy : Policy) (strict : Bool) (uri : Uri) (document : Json) :
    (policy.strictly strict).openAs uri document = policy.openAs uri document := by
  simp only [openAs, draftsOf_strictly]

namespace Load

/-- The load under a policy of another strictness. -/
def strictly (l : Load) (strict : Bool) : Load := { l with policy := l.policy.strictly strict }

theorem context_strictly (l : Load) (strict : Bool) : (l.strictly strict).context = l.context :=
  Policy.openAs_strictly ..

theorem session_lenient (l : Load) :
    (l.strictly false).session = (l.strictly true).session.lenient := by
  have hopen := Loading.openDocument_lenient l.documentUri l.document
    (Session.new (l.policy.strictly true) l.workspace.cache l.workspace.documents
      l.workspace.store)
  have hsession : ∀ strict, (l.strictly strict).session =
      ((Session.new (l.policy.strictly strict) l.workspace.cache l.workspace.documents
        l.workspace.store).openDocument l.documentUri l.document).2.push l.context := fun strict =>
    congrArg (Session.push · _) (l.context_strictly strict)
  rw [hsession, hsession]
  exact congrArg (fun opened => Session.push l.context opened.2) hopen

@[simp] theorem session_store (l : Load) : l.session.store = l.workspace.store := by
  rw [l.session_eq]
  rfl

theorem not_blemished_session (l : Load) :
    ¬ l.session.Blemished l.workspace.store.nodes.size := by
  rintro (⟨issue, hi, hm⟩ | ⟨id, schema, hid, hs, -⟩)
  · rw [Issue.isMalformed, l.session_report issue hi] at hm
    cases hm
  · rw [l.session_store, Store.node?_of_size_le hid] at hs
    cases hs

theorem conclude_lenient (uri : Uri) (outcome : Except Stop (Option Schema)) (s : Session) :
    Workspace.conclude uri outcome s.lenient = Workspace.conclude uri outcome s := by
  unfold Workspace.conclude
  rcases outcome with (_ | _) | _ | _ <;> rfl

/-- A conclusion with a schema comes from a session that found it without an error. -/
theorem of_conclude {uri : Uri} {outcome : Except Stop (Option Schema)} {s : Session}
    {schema : Schema} {report : Report} {w : Workspace}
    (h : Workspace.conclude uri outcome s = (.ok (schema, report), w)) :
    outcome = .ok (some schema) ∧ s.report = report ∧ report.hasErrors = false ∧
      w.store = s.store := by
  unfold Workspace.conclude at h
  rcases outcome with (_ | _) | _ | found
  · cases h
  · cases h
  · cases h
  · dsimp only at h
    split at h
    · cases h
    · rename_i herrors
      cases h
      exact ⟨rfl, rfl, by simpa using herrors, rfl⟩

/-- Whether the session of a load was blemished, told by what the load comes to. -/
theorem blemished_iff {l : Load} {s : Session} {report : Report} {w : Workspace}
    (hreport : s.report = report) (hstore : w.store = s.store) :
    ¬ s.Blemished l.workspace.store.nodes.size ↔
      (∀ issue ∈ report.issues, issue.isMalformed = false) ∧
        ∀ id node, l.workspace.store.nodes.size ≤ id → w.store.node? id = some node →
          node.extra = [] := by
  rw [Session.Blemished, not_or, hreport, ← hstore]
  refine and_congr ⟨fun h issue hi => ?_, fun h => ?_⟩ ⟨fun h id node hid hn => ?_, fun h => ?_⟩
  · exact Bool.eq_false_iff.mpr fun hm => h ⟨issue, hi, hm⟩
  · rintro ⟨issue, hi, hm⟩
    rw [h issue hi] at hm
    cases hm
  · exact Decidable.of_not_not fun he => h ⟨id, node, hid, hn, he⟩
  · rintro ⟨id, node, hid, hn, he⟩
    exact he (h id node hid hn)

/-- Where the reading starts and what it does depend on the strictness by the session only. -/
theorem run_strictly (l : Load) (strict : Bool) :
    (l.strictly strict).run =
      match l.context.locate l.uri with
      | none => (.error (.unresolvedReference l.uri), l.workspace)
      | some start =>
        let (outcome, s) := (ExceptT.run (l.reading start)).run (l.strictly strict).session
        Workspace.conclude l.uri outcome s := by
  unfold run
  rw [context_strictly]
  rfl

/-- A strict load succeeds if the lenient one does without a blemish, and then comes to the
same. -/
theorem strict_run_iff (l : Load) (schema : Schema) (report : Report) (w : Workspace) :
    (l.strictly true).run = (.ok (schema, report), w) ↔
      (l.strictly false).run = (.ok (schema, report), w) ∧
        (∀ issue ∈ report.issues, issue.isMalformed = false) ∧
        ∀ id node, l.workspace.store.nodes.size ≤ id → w.store.node? id = some node →
          node.extra = [] := by
  rw [run_strictly, run_strictly, session_lenient]
  cases l.context.locate l.uri with
  | none => exact ⟨(fun h => by cases h), fun h => by cases h.1⟩
  | some start =>
    dsimp only
    have htwins : PlainTwins l.workspace.store.nodes.size (l.reading start) :=
      Loading.twins_loadNode ..
    have hnot : ¬ (l.strictly true).session.Blemished l.workspace.store.nodes.size :=
      (l.strictly true).not_blemished_session
    have hsize : l.workspace.store.nodes.size ≤ (l.strictly true).session.store.nodes.size := by
      rw [session_store]
      exact Nat.le_refl _
    have hstrict : (l.strictly true).session.policy.strict = true := by
      rw [session_eq]
      rfl
    rcases hs : (ExceptT.run (l.reading start)).run (l.strictly true).session with ⟨r, s⟩
    rcases ht : (ExceptT.run (l.reading start)).run (l.strictly true).session.lenient
      with ⟨r', t⟩
    dsimp only
    cases htwins.coupled hsize hstrict hs ht with
    | agree heq ht' _ hclean =>
      subst heq ht'
      rw [conclude_lenient]
      refine ⟨fun h => ⟨h, ?_⟩, fun h => h.1⟩
      obtain ⟨-, hreport, -, hstore⟩ := of_conclude h
      exact (blemished_iff hreport hstore).mp (mt hclean hnot)
    | depart herrors hmarked =>
      constructor
      · intro h
        obtain ⟨-, rfl, hnone, -⟩ := of_conclude h
        rw [herrors] at hnone
        cases hnone
      · rintro ⟨h, hclean⟩
        obtain ⟨rfl, hreport, -, hstore⟩ := of_conclude h
        exact absurd ((hmarked _ rfl).resolve_left id)
          ((blemished_iff (l := l) hreport hstore).mpr hclean)

end Load

/-! ## Requests -/

namespace Request

variable {policy : Policy} {w : Workspace}

/-- The answer to a request and the report of its load, and the workspace after it. An answer
from the cache comes without a report. -/
def reply (request : Request) (policy : Policy) (w : Workspace) :
    Except Failure (Schema × Report) × Workspace :=
  match request.load? policy w with
  | some l => l.run
  | none => ((request.run policy w).1.map (·, .empty), (request.run policy w).2)

/-- The reply has the answer. -/
theorem run_eq_reply (request : Request) (policy : Policy) (w : Workspace) :
    request.run policy w = ((request.reply policy w).1.map Prod.fst, (request.reply policy w).2) := by
  unfold reply
  cases hl : request.load? policy w with
  | some l => exact run_of_load? hl
  | none =>
    rcases request.run policy w with ⟨_ | _, _⟩ <;> rfl

/-- To read a document that has a URI is to ask for it by this name. -/
theorem runs_readReporting (uri : Uri) (document : Json) :
    Runs (Workspace.readReporting policy uri document) w
      ((Request.named uri document).reply policy w).1
      ((Request.named uri document).reply policy w).2 := by
  unfold reply
  cases hl : (Request.named uri document).load? policy w with
  | some l => exact runs_readReporting_of_load hl
  | none =>
    obtain ⟨schema, -, hr⟩ := runs_readReporting_of_none hl
    have hrun : (Request.named uri document).run policy w = (.ok schema, w) := hr.returning Prod.fst
    rw [hrun]
    exact hr

theorem alias?_strictly (strict : Bool) (uri : Uri) (document : Json) :
    Workspace.alias? (policy.strictly strict) uri document = Workspace.alias? policy uri document := by
  unfold Workspace.alias?
  rw [Policy.draftsOf_strictly]

theorem loadAt?_strictly (strict : Bool) (uri : Uri) (document : Json) :
    loadAt? (policy.strictly strict) w uri document =
      (loadAt? policy w uri document).map (·.strictly strict) := by
  unfold loadAt?
  dsimp only
  split
  · rfl
  · rw [alias?_strictly]
    rfl

/-- Which load a request starts does not depend on the strictness. -/
theorem load?_strictly (request : Request) (strict : Bool) :
    request.load? (policy.strictly strict) w =
      (request.load? policy w).map (·.strictly strict) := by
  cases request with
  | ofDocument document => exact loadAt?_strictly ..
  | ofText text =>
    simp only [load?]
    cases Json.read text with
    | none => rfl
    | some document => exact loadAt?_strictly ..
  | named uri document => exact loadAt?_strictly ..
  | ofUri uri =>
    simp only [load?]
    split
    · rfl
    · split
      · rfl
      · cases w.documents.fetch? uri.normalized.withoutFragment <;> rfl

/-- A strict request comes to what the lenient one comes to, if that is a schema whose loading
has met no malformed input and has kept no member that is no keyword; else it fails. -/
theorem strict_reply_iff (request : Request) (policy : Policy) (w : Workspace) (schema : Schema)
    (report : Report) (w' : Workspace) :
    request.reply (policy.strictly true) w = (.ok (schema, report), w') ↔
      request.reply (policy.strictly false) w = (.ok (schema, report), w') ∧
        (∀ issue ∈ report.issues, issue.isMalformed = false) ∧
        ∀ id node, w.store.nodes.size ≤ id → w'.store.node? id = some node →
          node.extra = [] := by
  unfold reply
  rw [load?_strictly, load?_strictly]
  cases hl : request.load? policy w with
  | some l =>
    have hstore := (load?_workspace hl).2.2
    simpa only [Option.map_some, hstore] using l.strict_run_iff schema report w'
  | none =>
    obtain ⟨r, -, hr⟩ := answer_of_load?_none
      ((load?_strictly request false).trans (congrArg (Option.map _) hl))
    have hsame := run_congr_of_none
      ((load?_strictly request true).trans (congrArg (Option.map _) hl))
      ((load?_strictly request false).trans (congrArg (Option.map _) hl))
    simp only [Option.map_none, hsame, hr]
    refine ⟨fun h => ⟨h, ?_⟩, fun h => h.1⟩
    obtain ⟨ha, rfl⟩ := Prod.mk.inj h
    cases r with
    | error failure => cases ha
    | ok found =>
      cases ha
      exact ⟨fun _ hi => absurd hi List.not_mem_nil, fun id node hid hn =>
        absurd (Store.node?_of_size_le hid) (by simp [hn])⟩

end Request
end SchemaAtlas
