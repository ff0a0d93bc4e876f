import SchemaAtlas.Proofs.Graph.Targets
import SchemaAtlas.Proofs.Loading.Coincide
import SchemaAtlas.Proofs.Spelling.Nodes
import SchemaAtlas.Proofs.Spelling.Outline

/-!
# Loads in every spelling

A load that looks references up in canonical form comes to the same in every spelling of the
references. So does the load itself if it comes to what that load comes to, and it does so
where all references are written in canonical form.
-/

namespace SchemaAtlas

/-! ## References in canonical form -/

namespace Loading

open LoadM

variable {α : Type} {s : Session}

theorem Coincide.get_right {x : LoadM α} {g : Session → LoadM α} (h : Coincide x (g s) s) :
    Coincide x (get >>= g) s := by
  unfold Coincide
  rw [run_bind]
  exact h

theorem object_of_written? {value : Json} {written : String} (h : written? value = some written) :
    ∃ object, value = .object object ∧ Entries.get? "$ref" object = some (.string written) := by
  unfold written? at h
  cases value with
  | object object =>
    obtain ⟨found, hfound, hstring⟩ := Option.bind_eq_some_iff.mp h
    cases found with
    | string text =>
      cases hstring
      exact ⟨object, rfl, hfound⟩
    | null | bool | number | array | object => cases hstring
  | null | bool | number | string | array => cases h

/-- A reference whose URI is in canonical form is looked up under it. -/
theorem coincide_loadCanonicalWith {load : NodeLoader} {location : Location} {value : Json}
    {hops : Nat} (h : ∀ written uri, written? value = some written →
      location.resolve written = .ok uri → uri.canonical = uri) :
    Coincide (loadCanonicalWith load location value hops) (loadWith load location value hops)
      s := by
  unfold loadCanonicalWith
  cases hw : written? value with
  | none => exact .refl _ _
  | some written =>
    obtain ⟨object, rfl, href⟩ := object_of_written? hw
    have hreference : ∀ draft, loadCanonicalReference load draft location written hops =
        loadReference load draft location written hops := by
      intro draft
      unfold loadCanonicalReference loadReference
      cases hu : location.resolve written with
      | error fault => rfl
      | ok uri =>
        dsimp only
        rw [h written uri hw hu]
    unfold loadWith
    refine coincide_get_bind ?_
    cases s.current? with
    | none => exact .refl _ _
    | some context =>
      refine .get_right ?_
      rw [href]
      cases Entries.get? location.pointerUri s.built with
      | some schema => exact .refl _ _
      | none =>
        dsimp only
        rw [hreference]
        exact .refl _ _

end Loading

namespace Load

open Loading

/-- The URIs of the references that are met are in canonical form. -/
def WritesCanonically (l : Load) : Prop :=
  ∀ p uri, l.Meets p → p.refers? = some uri → uri.canonical = uri

/-- Where references are written in canonical form, nothing is gained by looking them up so. -/
theorem WritesCanonically.runBy_eq {l : Load} (h : l.WritesCanonically) :
    l.runBy loadCanonical = l.run := by
  refine Load.runBy_eq (fun _ => Ledger.silent_lawful _ _) rfl ?_
  intro start hstart steps p hops s harrives
  apply coincide_loadCanonicalWith
  intro written uri hwritten hu
  obtain ⟨object, hv, href⟩ := object_of_written? hwritten
  exact h p uri ⟨start, hstart, harrives.meets object hv⟩ (p.refers?_of_object hv href hu)

end Load

/-! ## Outcomes -/

/-- What an answer comes to: the outline of the schema, if there is one. -/
def outcome (answer : Except Failure Schema × Workspace) :
    Option (List Turn → Option ((Uri × Pointer) × Bool)) :=
  match answer.1 with
  | .ok s => some (answer.2.store.outline s)
  | .error _ => none

namespace Load

/-- What the load comes to with another loader of nodes. -/
def outcomeBy (load : Nat → Loading.NodeLoader) (l : Load) :
    Option (List Turn → Option ((Uri × Pointer) × Bool)) :=
  outcome ((l.runBy load).1.map Prod.fst, (l.runBy load).2)

end Load

/-! ## Requests that respell each other -/

open Json

/-- Workspaces whose documents respell each other. -/
structure Workspace.Respells (w w' : Workspace) : Prop where
  documents : w.documents.Respells w'.documents
  cache : w.cache = w'.cache
  store : w.store = w'.store

/-- Requests for the same URI with documents that respell each other. -/
inductive Request.Respells : Request → Request → Prop
  | named (uri : Uri) {v w : Json} : v.Respells w → Request.Respells (.named uri v) (.named uri w)
  | ofUri (uri : Uri) : Request.Respells (.ofUri uri) (.ofUri uri)

/-- Loads of documents that respell each other. -/
structure Load.Respells (l m : Load) : Prop where
  policy : l.policy = m.policy
  workspace : l.workspace.Respells m.workspace
  uri : l.uri = m.uri
  documentUri : l.documentUri = m.documentUri
  document : l.document.Respells m.document

variable {policy : Policy} {w w' : Workspace} {request request' : Request}

theorem Workspace.alias?_eq {uri : Uri} {v v' : Json} (h : v.Respells v') :
    alias? policy uri v = alias? policy uri v' := by
  unfold alias?
  rw [h.metaSchema]
  dsimp only
  rw [Lookup.declaredId?_eq (DraftSet.ref_notMem_idKeys _) (.respells h)]

theorem Request.loadAt?_rel (hw : w.Respells w') {uri : Uri} {v v' : Json} (h : v.Respells v') :
    Option.Rel Load.Respells (loadAt? policy w uri v) (loadAt? policy w' uri v') := by
  unfold loadAt?
  dsimp only
  rw [hw.cache, Workspace.alias?_eq h]
  split
  · exact .none
  · have hregistered := hw.documents.register uri.withoutFragment.normalized h
    refine .some ⟨rfl, ⟨?_, rfl, hw.store⟩, rfl, rfl, h⟩
    dsimp only
    split
    · exact hregistered.register _ h
    · exact hregistered

theorem Request.Respells.load? (policy : Policy) (hw : w.Respells w')
    (h : request.Respells request') :
    Option.Rel Load.Respells (request.load? policy w) (request'.load? policy w') := by
  cases h with
  | named uri h => exact loadAt?_rel hw h
  | ofUri uri =>
    unfold Request.load?
    dsimp only
    rw [hw.cache]
    split
    · exact .none
    · have hloaded := hw.documents.loaded? uri.normalized.withoutFragment
      revert hloaded
      generalize w.documents.loaded? uri.normalized.withoutFragment = loaded
      generalize w'.documents.loaded? uri.normalized.withoutFragment = loaded'
      rintro (hdocument | _)
      · exact .some ⟨rfl, hw, rfl, rfl, hdocument⟩
      · have hfetched := hw.documents.fetch? uri.normalized.withoutFragment
        revert hfetched
        generalize w.documents.fetch? uri.normalized.withoutFragment = fetched
        generalize w'.documents.fetch? uri.normalized.withoutFragment = fetched'
        rintro (⟨hdocument, hdocuments⟩ | _)
        · exact .some ⟨rfl, ⟨hdocuments, rfl, hw.store⟩, rfl, rfl, hdocument⟩
        · exact .none

namespace Load.Respells

variable {l m : Load} (h : l.Respells m)

include h

theorem context : l.context.Respells m.context := by
  unfold Load.context Policy.openAs
  dsimp only
  rw [h.document.metaSchema, h.policy]
  exact ⟨h.documentUri, rfl, rfl, h.document⟩

theorem session : l.session.Respells m.session := by
  have hnew : Session.Respells
      (.new l.policy l.workspace.cache l.workspace.documents l.workspace.store)
      (.new m.policy m.workspace.cache m.workspace.documents m.workspace.store) :=
    { policy := h.policy, cache := h.workspace.cache, documents := h.workspace.documents
      store := congrArg Store.skeleton h.workspace.store, errors := rfl, stack := .nil
      opened := .nil, inProgress := rfl, resolving := rfl, built := .nil }
  unfold Load.session
  dsimp only
  rw [h.documentUri]
  exact (hnew.openDocument m.documentUri h.document).2.push h.context

theorem stepLimit : l.workspace.stepLimit = m.workspace.stepLimit := by
  unfold Workspace.stepLimit
  rw [h.workspace.documents.weight]

end Load.Respells

/-- Readings that agree conclude loads alike. -/
theorem outcome_conclude {uri : Uri} {r r' : Except Stop (Option Schema)} {s t : Session}
    (h : Agree .spelling (Option.Rel (Same Schema.skeleton)) r s r' t) :
    outcome ((Workspace.conclude uri r s).1.map Prod.fst, (Workspace.conclude uri r s).2) =
      outcome ((Workspace.conclude uri r' t).1.map Prod.fst, (Workspace.conclude uri r' t).2) := by
  have hfails : ∀ (e : Stop) (s : Session),
      outcome ((Workspace.conclude uri (.error e) s).1.map Prod.fst,
        (Workspace.conclude uri (.error e) s).2) = none := by
    intro e s
    cases e <;> rfl
  cases h with
  | ok hfound hs =>
    cases hfound with
    | none => rfl
    | some hab =>
      unfold Workspace.conclude
      dsimp only
      rw [hs.errors]
      split
      · rfl
      · exact congrArg some (Store.outline_of_skeleton hs.store hab)
  | error => rw [hfails, hfails]
  | first halone => exact halone.elim
  | second halone => exact halone.elim

/-- In canonical form loads come to the same in every spelling. -/
theorem Load.Respells.outcomeBy_eq {l m : Load} (h : l.Respells m) :
    l.outcomeBy Loading.loadCanonical = m.outcomeBy Loading.loadCanonical := by
  have hlocate := h.context.locate_rel l.uri
  unfold Load.outcomeBy Load.runBy
  rw [← h.uri, h.stepLimit]
  revert hlocate
  generalize l.context.locate l.uri = start
  generalize m.context.locate l.uri = start'
  rintro (@⟨⟨location, value⟩, ⟨location', value'⟩, hlocation, hvalue⟩ | _)
  · cases hlocation
    have halike := Loading.alike_loadCanonical m.workspace.stepLimit 0 location hvalue
    dsimp only at halike ⊢
    revert halike
    generalize Loading.loadCanonical m.workspace.stepLimit location value 0 = x
    generalize Loading.loadCanonical m.workspace.stepLimit location value' 0 = y
    intro halike
    exact outcome_conclude (halike.agree h.session rfl rfl)
  · rfl

namespace Request

/-- What a request comes to. -/
def outcome (request : Request) (policy : Policy) (w : Workspace) :
    Option (List Turn → Option ((Uri × Pointer) × Bool)) :=
  SchemaAtlas.outcome (request.run policy w)

/-- What a request comes to if references are looked up in canonical form. -/
def canonicalOutcome (request : Request) (policy : Policy) (w : Workspace) :
    Option (List Turn → Option ((Uri × Pointer) × Bool)) :=
  match request.load? policy w with
  | some l => l.outcomeBy Loading.loadCanonical
  | none => request.outcome policy w

/-- Requests without a load are answered alike. -/
theorem Respells.outcome_of_none (hw : w.Respells w') (h : request.Respells request')
    (hnone : request.load? policy w = none) (hnone' : request'.load? policy w' = none) :
    request.outcome policy w = request'.outcome policy w' := by
  cases h with
  | @named uri v v' h =>
    obtain ⟨schema, hc, hr⟩ := runs_readReporting_of_none hnone
    obtain ⟨schema', hc', hr'⟩ := runs_readReporting_of_none hnone'
    rw [← hw.cache] at hc'
    cases hc.symm.trans hc'
    have hrun : (Request.named uri v).run policy w = (.ok schema, w) := hr.returning Prod.fst
    have hrun' : (Request.named uri v').run policy w' = (.ok schema, w') := hr'.returning Prod.fst
    simp only [outcome, hrun, hrun', SchemaAtlas.outcome, hw.store]
  | ofUri uri =>
    have hrun : (Request.ofUri uri).run policy w = _ := runs_loadUri_of_none hnone
    have hrun' : (Request.ofUri uri).run policy w' = _ := runs_loadUri_of_none hnone'
    simp only [outcome, hrun, hrun', SchemaAtlas.outcome, hw.cache, hw.store]

theorem Respells.canonicalOutcome_eq (policy : Policy) (hw : w.Respells w')
    (h : request.Respells request') :
    request.canonicalOutcome policy w = request'.canonicalOutcome policy w' := by
  have hload := h.load? policy hw
  unfold canonicalOutcome
  cases hl : request.load? policy w with
  | none =>
    cases hl' : request'.load? policy w' with
    | none => exact h.outcome_of_none hw hl hl'
    | some =>
      rw [hl, hl'] at hload
      cases hload
  | some l =>
    cases hl' : request'.load? policy w' with
    | none =>
      rw [hl, hl'] at hload
      cases hload
    | some m =>
      rw [hl, hl'] at hload
      cases hload with
      | some hlm => exact hlm.outcomeBy_eq

end Request
end SchemaAtlas
