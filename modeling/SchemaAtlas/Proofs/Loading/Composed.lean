import SchemaAtlas.Proofs.Loading.Run

/-!
# What loads are composed of

A load is composed of few kinds of steps: it looks at the session, changes the parts of it
that are neither policy nor report, opens documents, makes nodes, and reports. A property of
these steps that passes to sequences is a property of the reading of every node
(`Compositional.loadNode`).
-/

namespace SchemaAtlas

/-- A change that leaves the policy and the report as they are. -/
structure Session.Still (g : Session → Session) : Prop where
  policy : ∀ s, (g s).policy = s.policy
  report : ∀ s, (g s).report = s.report

open LoadM

/-- A property of the steps that loads are composed of, which sequences of them have. -/
structure Compositional (P : ∀ {α : Type}, LoadM α → Prop) : Prop where
  pure {α : Type} (a : α) : P (Pure.pure a)
  exhausted {α : Type} : P (throw .exhausted : LoadM α)
  bind {α β : Type} {x : LoadM α} {f : α → LoadM β} : P x → (∀ a, P (f a)) → P (x >>= f)
  /-- From each session on, the step does what some step with the property does. -/
  along {α : Type} {x : LoadM α} :
    (∀ s, ∃ y : LoadM α, P y ∧ ∀ {r s'}, Runs x s r s' → Runs y s r s') → P x
  fatal {α : Type} {kind : IssueKind} (location : Location) (message : String) :
    kind.isFatal = true → P (LoadM.fatal kind location message : LoadM α)
  malformed {kind : IssueKind} (location : Location) (message : String) :
    kind.isFatal = false → P (LoadM.malformed kind location message)
  warning {kind : IssueKind} (location : Location) (message : String) :
    kind.isFatal = false → P (issue .warning kind location message)
  unknown {α : Type} (location : Location) (message : String) (a b : α) : P (do
    if (← get).policy.strict then
      issue .error .keywordNotFound location message
      return a
    else return b)
  modify {g : Session → Session} : Session.Still g → P (modify g)
  openDocument (uri : Uri) (document : Json) : P (modifyGet (Session.openDocument uri document))
  onStore {α : Type} (step : Store → α × Store) : P (LoadM.onStore step)
  between {α : Type} {before after : Session → Session} {x : LoadM α} : Session.Still before →
    Session.Still after → P x → P (LoadM.between before after x)

namespace Compositional

variable {P : ∀ {α : Type}, LoadM α → Prop} (hP : Compositional P)

include hP

theorem map {α β : Type} {x : LoadM α} {f : α → β} (hx : P x) : P (do return f (← x)) :=
  hP.bind hx fun _ => hP.pure _

theorem get {β : Type} {f : Session → LoadM β} (hf : ∀ s, P (f s)) : P (get >>= f) :=
  hP.along fun s => ⟨f s, hf s, runs_get_bind.mp⟩

/-! ## Keywords -/

section

open Digest

theorem checkPattern {location : Location} {pattern : String} :
    P (checkPattern location pattern) := by
  unfold Digest.checkPattern
  split
  · exact hP.pure _
  · exact hP.warning _ _ rfl

theorem names {location : Location} {index : Nat} {elements : List Json} :
    P (names location index elements) := by
  induction elements generalizing index with
  | nil => exact hP.pure _
  | cons value rest ih =>
    unfold Digest.names
    cases value with
    | string name => exact hP.map ih
    | null | bool | number | array | object =>
      exact hP.bind (hP.malformed _ _ rfl) fun _ => ih

theorem uriText {site : Site} {text : String} : P (uriText site text) := by
  unfold Digest.uriText
  cases site.location.resolve text with
  | ok uri => exact hP.pure _
  | error fault =>
    refine hP.bind (hP.malformed _ _ ?_) fun _ => hP.pure _
    split <;> rfl

theorem positiveNumber {site : Site} {n : Number} : P (positiveNumber site n) := by
  unfold Digest.positiveNumber
  split
  · exact hP.pure _
  · exact hP.bind (hP.malformed _ _ rfl) fun _ => hP.pure _

theorem count {site : Site} {n : Number} : P (count site n) := by
  unfold Digest.count
  cases n.count? with
  | some k => exact hP.pure _
  | none => exact hP.bind (hP.malformed _ _ rfl) fun _ => hP.pure _

theorem limitFlag {site : Site} : P (limitFlag site) := by
  unfold Digest.limitFlag
  dsimp only
  split
  · exact hP.pure _
  · exact hP.malformed _ _ rfl

theorem forM_malformed {kind : IssueKind} {location : Location}
    {message : CatalogEntry → String} (entries : List CatalogEntry)
    (hk : kind.isFatal = false) :
    P (entries.forM fun entry => LoadM.malformed kind location (message entry)) := by
  induction entries with
  | nil => exact hP.pure _
  | cons entry rest ih => exact hP.bind (hP.malformed _ _ hk) fun _ => ih

variable {load : Loader} (hload : ∀ location value, P (load location value))

include hload

theorem schemas {location : Location} {index : Nat} {elements : List Json} :
    P (schemas load location index elements) := by
  induction elements generalizing index with
  | nil => exact hP.pure _
  | cons value rest ih =>
    refine hP.bind (hload _ _) fun found => ?_
    cases found with
    | none => exact hP.pure _
    | some schema => exact hP.map ih

theorem schemaList {site : Site} : P (schemaList load site) := by
  unfold Digest.schemaList
  cases site.value with
  | array elements => exact hP.map (hP.schemas hload)
  | object members => exact hP.map (hload _ _)
  | null | bool | number | string => exact hP.pure _

theorem items {site : Site} : P (items load site) := by
  unfold Digest.items
  cases site.value with
  | array elements => exact hP.map (hP.schemas hload)
  | null | bool | number | string | object => exact hP.map (hload _ _)

theorem schemaEntries {site : Site} {members : List (String × Json)} :
    P (schemaEntries load site members) := by
  induction members with
  | nil => exact hP.pure _
  | cons member rest ih =>
    obtain ⟨name, value⟩ := member
    have hentry : ∀ {f : Option Schema → LoadM (List (String × Schema))},
        P (f none) → (∀ schema, P (f (some schema))) →
        P (load (site.location.child name) value >>= f) := by
      intro f hnone hsome
      refine hP.bind (hload _ _) ?_
      rintro (_ | schema)
      · exact hnone
      · exact hsome schema
    unfold Digest.schemaEntries
    split
    · exact hP.bind (hP.malformed _ _ rfl) fun _ => ih
    · dsimp only
      split
      · exact hP.bind hP.checkPattern fun _ => hentry ih fun _ => hP.map ih
      · exact hentry ih fun _ => hP.map ih

theorem dependency {location : Location} {name : String} {value : Json} :
    P (dependency load location name value) := by
  unfold Digest.dependency
  cases value with
  | array elements => exact hP.map hP.names
  | string property => exact hP.pure _
  | object | bool => exact hP.map (hload _ _)
  | null | number => exact hP.bind (hP.malformed _ _ rfl) fun _ => hP.pure _

theorem dependencyEntries {location : Location} {members : List (String × Json)} :
    P (dependencyEntries load location members) := by
  induction members with
  | nil => exact hP.pure _
  | cons member rest ih =>
    obtain ⟨name, value⟩ := member
    refine hP.bind (hP.dependency hload) fun found => ?_
    cases found with
    | none => exact ih
    | some d => exact hP.map ih

theorem typeEntries {thirdDraft : Bool} {entries : List (Location × Json)} :
    P (typeEntries load thirdDraft entries) := by
  induction entries with
  | nil => exact hP.pure _
  | cons entry rest ih =>
    obtain ⟨location, value⟩ := entry
    unfold Digest.typeEntries
    split
    · exact hP.bind (hload _ _) fun _ => hP.map ih
    · split
      · exact hP.map ih
      · exact hP.bind (hP.malformed _ _ rfl) fun _ => ih

theorem keyword {active : DraftSet} {builder : Builder} {site : Site} :
    P (keyword load active builder site) := by
  unfold Digest.keyword
  split
  · split
    · exact hP.map (hP.onStore _)
    · exact hP.map (hload _ _)
  · exact hP.map (hload _ _)
  · exact hP.schemaList hload
  · exact hP.map (hP.schemaEntries hload)
  · exact hP.items hload
  · exact hP.map (hP.dependencyEntries hload)
  · exact hP.pure _
  · exact hP.bind hP.checkPattern fun _ => hP.pure _
  · exact hP.map hP.uriText
  · exact hP.positiveNumber
  · exact hP.count
  · exact hP.pure _
  · exact hP.map hP.names
  · exact hP.map (hP.typeEntries hload)
  · exact hP.pure _
  · exact hP.bind hP.limitFlag fun _ => hP.pure _
  · exact hP.pure _
  · exact hP.pure _
  · exact hP.pure _

theorem tryCandidates {active : DraftSet} {object : List (String × Json)}
    {location : Location} {value : Json} {builder : Builder} {candidates : List CatalogEntry} :
    P (tryCandidates load active object location value builder candidates) := by
  induction candidates with
  | nil => exact hP.pure _
  | cons entry rest ih =>
    refine hP.bind (hP.keyword hload) fun found => ?_
    cases found with
    | none => exact ih
    | some k => exact hP.pure _

theorem member {active : DraftSet} {object : List (String × Json)} {key : String}
    {value : Json} {builder : Builder} : P (member load active object key value builder) := by
  unfold Digest.member
  dsimp only
  split
  · exact hP.unknown _ _ _ _
  · split
    · exact hP.bind (hP.forM_malformed _ rfl) fun _ => hP.pure _
    · exact hP.tryCandidates hload

theorem members {active : DraftSet} {object list : List (String × Json)} {builder : Builder} :
    P (members load active object list builder) := by
  induction list generalizing builder with
  | nil => exact hP.pure _
  | cons entry rest ih =>
    obtain ⟨key, value⟩ := entry
    exact hP.bind (hP.member hload) fun _ => ih

end

/-! ## Nodes -/

open Loading Session

theorem identify {location : Location} {id : String} : P (identify location id) := by
  unfold Loading.identify
  cases location.withId id with
  | ok inner =>
    refine hP.get fun s => ?_
    split
    · exact hP.bind (hP.warning _ _ rfl) fun _ => hP.pure _
    · exact hP.pure _
  | error fault => exact hP.bind (hP.malformed _ _ rfl) fun _ => hP.pure _

theorem obtain {location : Location} {uri : Uri} : P (obtain location uri) := by
  refine hP.along fun s => ?_
  cases hd : ((Entries.get? uri s.opened).map OpenDocument.document).or
      (s.documents.loaded? uri) with
  | some document =>
    refine ⟨Pure.pure document, hP.pure _, fun hr => ?_⟩
    have hr := runs_get_bind.mp hr
    simpa only [hd] using hr
  | none =>
    cases hf : s.documents.fetch? uri with
    | none =>
      refine ⟨LoadM.fatal .documentNotFound location
        s!"Document not found: {uri.withoutFragment}", hP.fatal _ _ rfl, fun hr => ?_⟩
      have hr := runs_get_bind.mp hr
      simp only [hd, hf] at hr
      exact hr
    | some fetched =>
      obtain ⟨document, documents⟩ := fetched
      refine ⟨do modifyThe Session fun s => { s with documents }; return document,
        hP.bind (hP.modify ⟨fun _ => rfl, fun _ => rfl⟩) fun _ => hP.pure _, fun hr => ?_⟩
      have hr := runs_get_bind.mp hr
      simp only [hd, hf] at hr
      exact runs_modify_bind.mpr (runs_set_bind.mp hr)

section

variable {load : NodeLoader} (hload : ∀ location value hops, P (load location value hops))

include hload

theorem buildTarget {document : OpenDocument} {uri : Uri} {hops : Nat} :
    P (buildTarget load document uri hops) := by
  unfold Loading.buildTarget
  dsimp only
  split
  · exact hP.between ⟨fun _ => rfl, fun _ => rfl⟩ ⟨fun _ => rfl, fun _ => rfl⟩ (hload _ _ _)
  · exact hP.pure _

theorem buildInFirst {uri : Uri} {hops : Nat} {documents : List OpenDocument} :
    P (buildInFirst load uri hops documents) := by
  induction documents with
  | nil => exact hP.pure _
  | cons document rest ih =>
    refine hP.bind (hP.buildTarget hload) fun found => ?_
    cases found with
    | some schema => exact hP.pure _
    | none => exact ih

theorem chase {location : Location} {uri : Uri} {hops : Nat} :
    P (chase load location uri hops) := by
  unfold Loading.chase
  refine hP.get fun s => hP.bind (hP.buildInFirst hload) fun found => ?_
  cases found with
  | some schema => exact hP.pure _
  | none =>
    dsimp only
    split
    · exact hP.fatal _ _ rfl
    · refine hP.bind hP.obtain fun document => hP.bind (hP.openDocument _ _) fun opened => ?_
      refine hP.bind (hP.buildTarget hload) fun found => ?_
      cases found with
      | some schema => exact hP.pure _
      | none => exact hP.fatal _ _ rfl

theorem resolve {location : Location} {written : String} {uri : Uri} {hops : Nat} :
    P (resolve load location written uri hops) := by
  unfold Loading.resolve
  refine hP.get fun s => ?_
  split
  · exact hP.pure _
  · exact hP.pure _
  · split
    · exact hP.fatal _ _ rfl
    · split
      · exact hP.fatal _ _ rfl
      · refine hP.bind (hP.between ⟨fun _ => rfl, fun _ => rfl⟩ ⟨fun _ => rfl, fun _ => rfl⟩
          (hP.chase hload)) fun target => ?_
        exact hP.bind (hP.modify ⟨fun _ => rfl, fun _ => rfl⟩) fun _ => hP.pure _

theorem loadReference {draft : Draft} {location : Location} {written : String} {hops : Nat} :
    P (loadReference load draft location written hops) := by
  unfold Loading.loadReference
  split
  · exact hP.fatal _ _ rfl
  · exact hP.bind (hP.resolve hload) fun _ => hP.onStore _

theorem loadObject {context : OpenDocument} {location : Location}
    {object : List (String × Json)} : P (loadObject load context location object) := by
  have hread : ∀ found : Location × List Uri, P (do
      let uris := location.pointerUri :: location.uri :: found.2
      let id ← LoadM.onStore Store.reserve
      let builder ← LoadM.between (Session.register id uris) (Session.release id uris)
        (Digest.members (fun location value => load location value 0) context.active object object
          (.new found.1 context.draft))
      let schema := Schema.node id found.1 context.draft builder.body
      LoadM.onStore fun store => ((), store.complete schema)
      modifyThe Session (Session.finish schema uris)
      return schema) := by
    intro found
    refine hP.bind (hP.onStore _) fun id => ?_
    refine hP.bind (hP.between ⟨fun _ => rfl, fun _ => rfl⟩ ⟨fun _ => rfl, fun _ => rfl⟩
      (hP.members fun location value => hload location value 0)) fun builder => ?_
    refine hP.bind (hP.onStore _) fun _ => ?_
    exact hP.bind (hP.modify ⟨fun _ => rfl, fun _ => rfl⟩) fun _ => hP.pure _
  unfold Loading.loadObject
  split
  · exact hP.bind hP.identify hread
  · exact hP.bind (hP.pure _) hread

theorem loadWith {location : Location} {value : Json} {hops : Nat} :
    P (loadWith load location value hops) := by
  unfold Loading.loadWith
  refine hP.get fun s => ?_
  split
  · exact hP.pure _
  · split
    · refine hP.get fun s => ?_
      split
      · exact hP.pure _
      · exact hP.map (hP.loadReference hload)
      · exact hP.fatal _ _ rfl
      · exact hP.map (hP.loadObject hload)
    · split
      · exact hP.map (hP.onStore _)
      · exact hP.bind (hP.malformed _ _ rfl) fun _ => hP.pure _
    · exact hP.bind (hP.malformed _ _ rfl) fun _ => hP.pure _

end

/-- The property holds of the reading of every node. -/
theorem loadNode (steps : Nat) (location : Location) (value : Json) (hops : Nat) :
    P (loadNode steps location value hops) := by
  induction steps generalizing location value hops with
  | zero => exact hP.exhausted
  | succ steps ih => exact hP.loadWith ih

end Compositional

end SchemaAtlas
