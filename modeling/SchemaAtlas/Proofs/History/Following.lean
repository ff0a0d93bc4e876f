import SchemaAtlas.Proofs.History.Shelf
import SchemaAtlas.Proofs.Loading.Links
import SchemaAtlas.Proofs.Loading.Twins

/-!
# Following references on a shelf

In a session whose documents are those of an orderly shelf, a URI that names a position is followed
to this position and to no other one, whatever the session has opened or read.
-/

namespace SchemaAtlas

namespace Session

variable {shelf : Shelf} {policy : Policy} {context : OpenDocument} {s s' : Session} {uri : Uri}

/-- A session that is inside of a document of a shelf. -/
structure On (shelf : Shelf) (policy : Policy) (context : OpenDocument) (s : Session) : Prop where
  has : shelf.Has context
  inside : ∃ lib, shelf.Stocks lib ∧ s.Inside lib context
  policy : s.policy = policy
  numbered : s.Numbered

namespace On

variable (h : s.On shelf policy context)

include h

theorem current? : s.current? = some context := by
  obtain ⟨lib, -, hin⟩ := h.inside
  exact hin.current?

theorem frame (hf : Frame s s') : s'.On shelf policy context where
  has := h.has
  inside := by
    obtain ⟨lib, hlib, hin⟩ := h.inside
    exact ⟨lib, hlib, hin.frame hf⟩
  policy := hf.policy.trans h.policy
  numbered := hf.numbered h.numbered

theorem push {document : OpenDocument} (hd : shelf.Has document) :
    (s.push document).On shelf policy document where
  has := hd
  inside := by
    obtain ⟨lib, hlib, hin⟩ := h.inside
    exact ⟨lib, hlib, hin.push document⟩
  policy := h.policy
  numbered := h.numbered

theorem enter (uris : List Uri) : (s.enter uris).On shelf policy context where
  has := h.has
  inside := by
    obtain ⟨lib, hlib, hin⟩ := h.inside
    exact ⟨lib, hlib, hin.enter uris⟩
  policy := h.policy
  numbered := h.numbered.enter uris

theorem beginResolving (uri : Uri) : (s.beginResolving uri).On shelf policy context where
  has := h.has
  inside := by
    obtain ⟨lib, hlib, hin⟩ := h.inside
    exact ⟨lib, hlib, hin.beginResolving uri⟩
  policy := h.policy
  numbered := h.numbered

end On

theorem hasErrors_record (s : Session) (severity : Severity) (kind : IssueKind) (document : Uri)
    (path : Pointer) (message : String) :
    (s.record severity kind document path message).report.hasErrors =
      (s.report.hasErrors || severity = .error) :=
  Report.hasErrors_record _ _

/-- Errors stay in the report. -/
theorem Frame.hasErrors_eq_false (hf : Frame s s') (h : s'.report.hasErrors = false) :
    s.report.hasErrors = false := by
  rw [← Bool.not_eq_true]
  intro herrors
  cases (hf.grown.hasErrors herrors).symm.trans h

/-- Opening a document is no error. -/
theorem Opens.hasErrors {document : OpenDocument} (h : Opens uri s document s') :
    s'.report.hasErrors = s.report.hasErrors := by
  have hopen : ∀ (s : Session) (value : Json),
      (s.openDocument uri value).2.report.hasErrors = s.report.hasErrors := by
    intro s value
    unfold openDocument
    split
    · rfl
    · dsimp only
      split
      · exact (hasErrors_record ..).trans (by simp)
      · rfl
  cases h with
  | again => rfl
  | loaded => exact hopen s _
  | fetched => exact hopen _ _

/-- A session later on in which the same nodes are known and no error was recorded. -/
structure Steady (s s' : Session) : Prop where
  frame : Frame s s'
  idle : Idle s s'
  report : s'.report.hasErrors = s.report.hasErrors

theorem Steady.refl (s : Session) : Steady s s := ⟨.refl s, .refl s, rfl⟩

theorem Steady.warned (s : Session) (kind : IssueKind) (document : Uri) (path : Pointer)
    (message : String) : Steady s (s.record .warning kind document path message) :=
  ⟨frame_record .., idle_record .., (hasErrors_record ..).trans (by simp)⟩

end Session

namespace Loading

open LoadM Session

variable {shelf : Shelf} {policy : Policy} {context : OpenDocument} {load : NodeLoader}
variable {p q : Position} {uri : Uri} {hops : Nat} {s s' : Session}

/-- What an object is identified as: it is read in the scope of its own identifier and under URIs that
it answers to, all of them but those under which a node is known. -/
structure Identifies (p : Position) (s : Session) (inner : Location) (declared : List Uri)
    (s' : Session) : Prop where
  inner : inner = p.inner
  answers : ∀ uri ∈ p.location.pointerUri :: p.location.uri :: declared, p.answers uri
  known : ∀ {uri}, p.answers uri →
    uri ∈ p.location.pointerUri :: p.location.uri :: declared ∨ s.knows uri = true
  fresh : ∀ uri ∈ declared, s.knows uri = false
  steady : Steady s s'

theorem identifies_of_holds (hshelf : shelf.Orderly) (hp : shelf.Holds p)
    {object : List (String × Json)} (hv : p.value = .object object) {inner : Location}
    {declared : List Uri}
    (h : Identified p.context.active.idKeys p.location object s inner declared s') :
    Identifies p s inner declared s' := by
  have haccepts : p.context.accepts p.value = true := by rw [hv]; rfl
  have hpointer : p.answers p.location.pointerUri := Or.inl rfl
  have huri : p.answers p.location.uri := Or.inr (Or.inl rfl)
  cases h with
  | anonymous hid =>
    rw [← hv] at hid
    refine ⟨?_, by simp [hpointer, huri], fun ha => Or.inl ?_, by simp, .refl s⟩
    · simp only [Position.inner, Lookup.rescope, hid]
    · rcases ha with rfl | rfl | ⟨hdeclares, -⟩
      · exact List.mem_cons_self
      · exact List.mem_cons_of_mem _ List.mem_cons_self
      · exact absurd hid hdeclares
  | declared hid hwith hknows =>
    rw [← hv] at hid
    obtain ⟨⟨found, hfound, hinner⟩, -⟩ := hp.at?_inner hshelf haccepts hid
    cases hwith.symm.trans hfound
    subst hinner
    have hdeclared : p.answers p.inner.uri := Or.inr (Or.inr ⟨by simp [hid], rfl⟩)
    refine ⟨rfl, by simp [hpointer, huri, hdeclared], fun ha => Or.inl ?_, by simpa, .refl s⟩
    rcases ha with rfl | rfl | ⟨-, rfl⟩
    · exact List.mem_cons_self
    · exact List.mem_cons_of_mem _ List.mem_cons_self
    · exact List.mem_cons_of_mem _ (List.mem_cons_of_mem _ List.mem_cons_self)
  | repeated hid hwith hknows =>
    rw [← hv] at hid
    obtain ⟨⟨found, hfound, hinner⟩, -⟩ := hp.at?_inner hshelf haccepts hid
    cases hwith.symm.trans hfound
    subst hinner
    refine ⟨rfl, by simp [hpointer, huri], fun ha => ?_, by simp, .warned s _ _ _ _⟩
    rcases ha with rfl | rfl | ⟨-, rfl⟩
    · exact Or.inl List.mem_cons_self
    · exact Or.inl (List.mem_cons_of_mem _ List.mem_cons_self)
    · exact Or.inr hknows
  | broken hid hwith =>
    rw [← hv] at hid
    obtain ⟨⟨found, hfound, -⟩, -⟩ := hp.at?_inner hshelf haccepts hid
    cases hwith.symm.trans hfound

/-- A search for what is in another document reports no error. -/
theorem hasErrors_of_searches (hshelf : shelf.Orderly) (hat : shelf.at? uri = some q)
    {documents : List OpenDocument} (hall : ∀ d ∈ documents, shelf.Has d ∧ d.find? uri = none)
    (h : Searches load uri hops s documents s') : s'.report.hasErrors = s.report.hasErrors := by
  induction h with
  | start => rfl
  | absent _ _ ih => exact ih fun d hd => hall d (List.mem_append_left _ hd)
  | refused _ hlocate _ _ =>
    obtain ⟨hhas, hnone⟩ := hall _ (List.mem_append_right _ (List.mem_singleton.mpr rfl))
    have huri := (hshelf.holds_of_locate hhas hlocate).1
    rw [Shelf.at?, huri, hhas.found, Option.bind_some, hnone] at hat
    cases hat
  | opened _ hopens ih => exact hopens.hasErrors.trans (ih hall)

/-- A reference whose URI names a position is followed to this position. -/
theorem chase_cases (hshelf : shelf.Orderly) (hl : Framed load) (hon : s.On shelf policy context)
    (hat : shelf.at? uri = some q) {origin : Location} {r : Except Stop Schema}
    (h : ChaseRun load origin uri hops s r s') :
    ∃ s₁ s₂, Steady s s₁ ∧
      Runs (load q.location q.value (hops + 1)) (s₁.push q.context) (r.map some) s₂ ∧
      s' = s₂.pop := by
  obtain ⟨lib, hlib, hin⟩ := hon.inside
  have hall : ∀ {searched : List OpenDocument} {s₀ : Session},
      Searches load uri hops s searched s₀ → ∀ d ∈ candidates s.nearby s₀.remote? uri,
        shelf.Has d := by
    intro searched s₀ hs d hd
    rw [hin.nearby, (hl.searches hs).1.remote?, hin.remote?] at hd
    exact hshelf.has_of_candidates hlib hon.has hd
  have hfind : ∀ {document : OpenDocument} {location : Location} {value : Json},
      shelf.Has document → document.locate uri = some (location, value) →
      q = ⟨document, location, value⟩ := by
    intro document location value hhas hlocate
    have huri := (hshelf.holds_of_locate hhas hlocate).1
    rw [Shelf.at?, huri, hhas.found, Option.bind_some, OpenDocument.find?, hlocate] at hat
    simp only at hat
    split at hat
    · exact (Option.some.inj hat).symm
    · cases hat
  cases h with
  | @reached _ before after document _ _ _ s₀ s₁ s₂ hs₀ hc hs₁ hlocate hr
  | @ends _ before after document _ _ _ s₀ s₁ s₂ hs₀ hc hs₁ hlocate hr =>
    have hbefore : ∀ d ∈ before, shelf.Has d := fun d hd =>
      hall hs₀ d (hc ▸ List.mem_append_left _ hd)
    have hhas : shelf.Has document :=
      hall hs₀ document (hc ▸ List.mem_append_right _ List.mem_cons_self)
    obtain ⟨hidle, hvain⟩ := hl.searches_vain hs₁
    cases hfind hhas hlocate
    exact ⟨s₁, s₂, ⟨(hl.searches hs₁).1, hidle, hasErrors_of_searches hshelf hat
      (fun d hd => ⟨hbefore d hd, hvain d hd⟩) hs₁⟩, hr, rfl⟩
  | @lost _ _ _ s₀ s₁ hs₀ hs₁ =>
    have hnone := (hshelf.target?_eq hlib hon.has).trans hat
    rw [Library.target?, ← hin.nearby, ← hin.remote?, ← (hl.searches hs₀).1.remote?,
      List.findSome?_eq_none_iff.mpr (hl.searches_vain hs₁).2] at hnone
    cases hnone

/-- What is followed to its end names a position. -/
theorem at?_of_chase (hshelf : shelf.Orderly) (hl : Framed load) (hon : s.On shelf policy context)
    {origin : Location} {target : Schema} (h : ChaseRun load origin uri hops s (.ok target) s') :
    ∃ q, shelf.at? uri = some q := by
  obtain ⟨lib, hlib, hin⟩ := hon.inside
  cases h with
  | reached hs₀ hc hs₁ hlocate hr =>
    rw [← hshelf.target?_eq hlib hon.has]
    exact ⟨_, hl.target?_eq hin hs₀ hc hs₁ hlocate hr (by simp) (by simp)⟩

end Loading
end SchemaAtlas
