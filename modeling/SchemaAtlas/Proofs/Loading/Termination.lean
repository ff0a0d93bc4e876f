import SchemaAtlas.Proofs.Loading.Coincide
import SchemaAtlas.Proofs.Loading.Request
import SchemaAtlas.Proofs.Lookup.Scopes
import Mathlib.Algebra.BigOperators.Ring.List
import Mathlib.Algebra.Ring.Nat
import Mathlib.Tactic.Ring

/-!
# Loading terminates

The reading of a node calls itself for nested values, which are smaller, and for the targets
of references, while their URIs are marked as being followed. Every URI that is followed comes
from a list that the documents fix, and none is followed while it is marked. So the calls
descend in a well-founded order. The main statement says that and what follows from it: the
reading of a load comes to a result, which no further steps would change, within the number of
steps that the workspace allows it.
-/

namespace SchemaAtlas

/-! ## The order of calls -/

/-- What the order of calls depends on: the references being followed and the value read. -/
structure Call where
  resolving : List Uri
  value : Json

namespace Call

/-- One call is below another if it reads a smaller value, or follows one more reference. -/
inductive Descends (references : List Uri) : Call → Call → Prop
  | inward {resolving : List Uri} {value value' : Json} : value'.size < value.size →
      Descends references ⟨resolving, value'⟩ ⟨resolving, value⟩
  | follows {resolving : List Uri} {uri : Uri} {value value' : Json} : uri ∈ references →
      uri ∉ resolving → Descends references ⟨uri :: resolving, value'⟩ ⟨resolving, value⟩

variable {references : List Uri} {call call' : Call}

/-- How many references are not being followed. -/
def fresh (references : List Uri) (call : Call) : Nat :=
  (references.filter (· ∉ call.resolving)).length

theorem fresh_le (references : List Uri) (call : Call) : call.fresh references ≤ references.length :=
  List.length_filter_le _ _

theorem Descends.fresh (h : Descends references call' call) :
    call'.fresh references < call.fresh references ∨
      call'.fresh references = call.fresh references ∧ call'.value.size < call.value.size := by
  cases h with
  | inward hsize => exact Or.inr ⟨rfl, hsize⟩
  | @follows resolving uri _ _ huri hnew =>
    left
    have hfilter : references.filter (· ∉ uri :: resolving) =
        (references.filter (· ∉ resolving)).filter (· ≠ uri) := by
      rw [List.filter_filter]
      refine List.filter_congr fun other _ => ?_
      simp [not_or]
    rw [Call.fresh, Call.fresh, hfilter]
    refine List.length_filter_lt_length_iff_exists.mpr ⟨uri, ?_, by simp⟩
    exact List.mem_filter.mpr ⟨huri, by simpa using hnew⟩

theorem wellFounded_descends (references : List Uri) : WellFounded (Descends references) := by
  have hlex := WellFounded.prod_lex Nat.lt_wfRel.wf Nat.lt_wfRel.wf
  refine Subrelation.wf ?_ (InvImage.wf (fun call : Call => (call.fresh references, call.value.size)) hlex)
  intro call' call h
  rcases h.fresh with h | ⟨h, hsize⟩
  · exact Prod.Lex.left _ _ h
  · exact Prod.lex_def.mpr (Or.inr ⟨h, hsize⟩)

/-- The place of a call in the order, for values of limited size. -/
def rank (references : List Uri) (bound : Nat) (call : Call) : Nat :=
  call.fresh references * (bound + 1) + call.value.size

theorem Descends.rank_lt (h : Descends references call' call) {bound : Nat}
    (hsize : call'.value.size ≤ bound) :
    call'.rank references bound < call.rank references bound := by
  unfold rank
  rcases h.fresh with h | ⟨h, hlt⟩
  · have hmul := Nat.mul_le_mul_right (bound + 1) h
    rw [Nat.succ_mul] at hmul
    omega
  · rw [h]
    omega

end Call

/-! ## Where a load may read -/

/-- The positions that a load from `start` may read, in whichever document a reference is
looked for. -/
inductive Library.Tries (lib : Library) (start : Position) : Position → Prop
  | start : Tries lib start start
  | nested {p : Position} {members : List (String × Json)} {place : Location × Json} :
      Tries lib start p → p.members? = some members →
      place ∈ Digest.nested p.context.active p.inner members →
      Tries lib start ⟨p.context, place.1, place.2⟩
  | located {p : Position} {uri : Uri} {document : OpenDocument} {location : Location}
      {value : Json} : Tries lib start p → p.refers? = some uri →
      document ∈ Loading.candidates (lib.nearby p.context) lib.remote? uri →
      document.locate uri = some (location, value) →
      Tries lib start ⟨document, location, value⟩

namespace Load

/-- The documents of a load, as they are read. -/
def opens (l : Load) : List OpenDocument :=
  (l.workspace.documents.available ++ l.workspace.documents.loaded).map fun (uri, document) =>
    l.policy.openAs uri document

/-- The URIs that a load may follow. -/
def references (l : Load) : List Uri := l.opens.flatMap OpenDocument.references

/-- A position whose references are among those of the documents. -/
structure Charted (l : Load) (p : Position) : Prop where
  context : p.context ∈ l.opens
  within : Digest.within p.context.active.idKeys false p.location.scope p.value ⊆
    p.context.readings
  size : p.value.size ≤ l.workspace.documents.weight

end Load

theorem Documents.weight_eq (d : Documents) :
    d.weight = ((d.available ++ d.loaded).map fun entry => entry.2.size).sum := by
  have hfold : ∀ (entries : List (Uri × Json)) (n : Nat),
      entries.foldl (fun weight entry => weight + entry.2.size) n =
        n + (entries.map fun entry => entry.2.size).sum := by
    intro entries
    induction entries with
    | nil => exact fun _ => rfl
    | cons first rest ih =>
      intro n
      rw [List.foldl_cons, ih, List.map_cons, List.sum_cons, Nat.add_assoc]
  rw [weight, hfold, Nat.zero_add]

namespace Load

variable {l : Load} {p : Position} {uri : Uri}

theorem size_le_weight {document : OpenDocument} (h : document ∈ l.opens) :
    document.document.size ≤ l.workspace.documents.weight := by
  obtain ⟨entry, he, rfl⟩ := List.mem_map.mp h
  rw [Documents.weight_eq]
  exact List.le_sum_of_mem (List.mem_map_of_mem he)

theorem length_references_le (l : Load) :
    l.references.length ≤ l.workspace.documents.weight * l.workspace.documents.weight := by
  have hdocument : ∀ document ∈ l.opens, document.references.length ≤
      document.document.size * l.workspace.documents.weight := fun document hd =>
    Nat.le_trans document.length_references_le (Nat.mul_le_mul_left _ (size_le_weight hd))
  calc l.references.length
      = (l.opens.map fun document => document.references.length).sum := List.length_flatMap
    _ ≤ (l.opens.map fun document => document.document.size *
          l.workspace.documents.weight).sum := List.sum_le_sum hdocument
    _ = (l.opens.map fun document => document.document.size).sum *
          l.workspace.documents.weight := List.sum_map_mul_right ..
    _ = _ := by
      rw [opens, List.map_map, Documents.weight_eq]
      rfl

theorem Charted.refers? (h : l.Charted p) (hu : p.refers? = some uri) : uri ∈ l.references :=
  List.mem_flatMap.mpr ⟨p.context, h.context, Position.refers?_mem hu h.within⟩

theorem charted_of_locate {document : OpenDocument} {location : Location} {value : Json}
    (hd : document ∈ l.opens) (h : document.locate uri = some (location, value)) :
    l.Charted ⟨document, location, value⟩ where
  context := hd
  within := (OpenDocument.within_locate h).1
  size := Nat.le_trans (OpenDocument.within_locate h).2 (size_le_weight hd)

theorem Charted.nested (h : l.Charted p) {members : List (String × Json)}
    {place : Location × Json} (hm : p.members? = some members)
    (hp : place ∈ Digest.nested p.context.active p.inner members) :
    place.2.size < p.value.size ∧ l.Charted ⟨p.context, place.1, place.2⟩ := by
  obtain ⟨hsize, hwithin⟩ := @Digest.nested_within p.context.active.idKeys _ _ _ _ hp
  have hv : p.value = .object members := Position.value_of_members? hm
  have hscope : p.inner.scope = Lookup.innerScope p.context.active.idKeys p.location.scope
      (.object members) := by
    rw [Position.inner, Lookup.scope_rescope, hv]
  rw [hscope] at hwithin
  rw [← hv] at hsize
  refine ⟨hsize, h.context, fun reading hr => h.within ?_, Nat.le_trans (Nat.le_of_lt hsize) h.size⟩
  rw [hv]
  exact List.mem_cons_of_mem _ (hwithin hr)

theorem mem_opens_of_loaded {document : Json} (huri : uri.withoutFragment = uri)
    (h : l.workspace.documents.loaded? uri = some document) :
    l.policy.openAs uri document ∈ l.opens := by
  rw [Documents.loaded?, huri] at h
  exact List.mem_map.mpr ⟨(uri, document), List.mem_append_right _ (Entries.mem_of_get? h), rfl⟩

theorem mem_opens_of_fetched {found : Json × Documents} (huri : uri.withoutFragment = uri)
    (h : l.workspace.documents.fetch? uri = some found) :
    l.policy.openAs uri found.1 ∈ l.opens := by
  obtain ⟨document, hd, rfl⟩ := Option.map_eq_some_iff.mp h
  rw [huri] at hd
  exact List.mem_map.mpr ⟨(uri, document), List.mem_append_left _ (Entries.mem_of_get? hd), rfl⟩

/-- The document that a load begins with is loaded under its URI. -/
structure Begins (l : Load) : Prop where
  uri : l.documentUri.withoutFragment = l.documentUri
  loaded : l.workspace.documents.loaded? l.documentUri = some l.document

theorem Begins.context (h : l.Begins) : l.context ∈ l.opens := mem_opens_of_loaded h.uri h.loaded

/-- A load opens its document in a session that has opened none. -/
theorem Begins.opens (h : l.Begins) : ∃ document s, Session.Opens l.documentUri
    (Session.new l.policy l.workspace.cache l.workspace.documents l.workspace.store) document s ∧
      l.session = s.push l.context :=
  ⟨_, _, .loaded rfl h.loaded, rfl⟩

theorem Begins.remote?_eq (h : l.Begins) : l.library.remote? = fun uri =>
    (l.workspace.documents.find? uri).map (l.policy.openAs uri) := by
  obtain ⟨document, s, hopens, hsession⟩ := h.opens
  rw [library, hsession]
  exact hopens.frame.1.remote?

theorem Begins.remote? (h : l.Begins) (huri : uri.withoutFragment = uri) {document : OpenDocument}
    (hr : l.library.remote? uri = some document) : document ∈ l.opens := by
  rw [h.remote?_eq] at hr
  obtain ⟨value, hvalue, rfl⟩ := Option.map_eq_some_iff.mp hr
  rcases Option.or_eq_some_iff.mp hvalue with hl | ⟨-, hf⟩
  · exact mem_opens_of_loaded huri hl
  · obtain ⟨found, hfound, rfl⟩ := Option.map_eq_some_iff.mp hf
    exact mem_opens_of_fetched huri hfound

theorem Begins.candidates (h : l.Begins) (hp : l.Charted p) {document : OpenDocument}
    (hd : document ∈ Loading.candidates (l.library.nearby p.context) l.library.remote? uri) :
    document ∈ l.opens := by
  have hnearby : ∀ {document}, document ∈ l.library.nearby p.context → document ∈ l.opens := by
    intro document hd
    unfold Library.nearby at hd
    split at hd
    · rw [List.mem_singleton.mp hd]
      exact hp.context
    · rcases List.mem_pair.mp hd with rfl | rfl
      · exact hp.context
      · exact h.context
  unfold Loading.candidates at hd
  split at hd
  · exact hnearby hd
  · rcases List.mem_append.mp hd with hd | hd
    · exact hnearby hd
    · exact h.remote? (Uri.withoutFragment_idem _) (Option.mem_toList.mp hd)

/-- All that a load may read is charted, if the place where it starts is in its document. -/
theorem Begins.tries (h : l.Begins) {start : Position} (hs : l.start? = some start)
    (hp : l.library.Tries start p) : l.Charted p := by
  induction hp with
  | start =>
    obtain ⟨found, hl, rfl⟩ := Option.map_eq_some_iff.mp hs
    exact charted_of_locate h.context hl
  | nested _ hm hplace ih => exact (ih.nested hm hplace).2
  | located _ _ hd hl ih => exact charted_of_locate (h.candidates ih hd) hl

end Load

/-! ## The calls of a load -/

namespace Load

open Loading LoadM Session

/-- A position that a load may read, and a session in which it may read it. -/
structure Reads (l : Load) (start p : Position) (s : Session) : Prop where
  tries : l.library.Tries start p
  inside : s.Inside l.library p.context

variable {l : Load} {start p : Position} {s : Session} {hops : Nat} {load other : NodeLoader}

/-- The call that reads a position in a session. -/
abbrev call (p : Position) (s : Session) : Call := ⟨s.resolving, p.value⟩

/-- Two loaders that do the same at all calls below one. -/
def AgreeBelow (l : Load) (start : Position) (other load : NodeLoader) (top : Call) : Prop :=
  ∀ {q t hops}, l.Reads start q t → Call.Descends l.references (call q t) top →
    Coincide (other q.location q.value hops) (load q.location q.value hops) t

theorem coincide_chase (hbegins : l.Begins) (hstart : l.start? = some start)
    (hl : Framed load) (hr : l.Reads start p s)
    (h : l.AgreeBelow start other load (call p s)) {uri : Uri} (hrefers : p.refers? = some uri)
    (hnew : uri ∉ s.resolving) :
    Coincide (chase other p.location uri hops) (chase load p.location uri hops)
      (s.beginResolving uri) := by
  refine Loading.coincide_chase ?_
  intro searched before after document location value s₁ s₂ hs₁ hc hs₂ hlocate
  have hinside := hr.inside.beginResolving uri
  have hframe := (hl.searches hs₂).1
  have hd : document ∈ candidates (l.library.nearby p.context) l.library.remote? uri := by
    rw [← hinside.nearby, ← hinside.remote?, ← (hl.searches hs₁).1.remote?, hc]
    exact List.mem_append_right _ List.mem_cons_self
  refine @h ⟨document, location, value⟩ _ _ ⟨hr.tries.located hrefers hd hlocate,
    (hinside.frame hframe).push document⟩ ?_
  have hresolving : (s₂.push document).resolving = uri :: s.resolving := hframe.resolving
  rw [call, hresolving]
  exact .follows ((hbegins.tries hstart hr.tries).refers? hrefers) hnew

theorem coincide_object (hbegins : l.Begins) (hstart : l.start? = some start)
    (hl : Framed load) (hr : l.Reads start p s)
    (h : l.AgreeBelow start other load (call p s)) {object : List (String × Json)}
    (hv : p.value = .object object) (hm : p.members? = some object) :
    Coincide (loadObject other p.context p.location object)
      (loadObject load p.context p.location object) s := by
  refine coincide_loadObject ?_
  rintro inner declared s₁ hid place hplace s' ⟨_, hvisits⟩
  have hs' := (hl.visits hvisits).1
  rw [hid.inner_eq hv] at hplace
  have hinside := (hid.inside hr.inside _).frame hs'
  refine @h ⟨p.context, place.1, place.2⟩ _ _ ⟨hr.tries.nested hm hplace, hinside⟩ ?_
  have hresolving : s'.resolving = s.resolving := hs'.resolving.trans hid.frame.1.resolving
  rw [call, hresolving]
  exact .inward ((hbegins.tries hstart hr.tries).nested hm hplace).1

/-- All that a node needs of the loader of nested nodes are calls below its own. -/
theorem coincide_loadWith (hbegins : l.Begins) (hstart : l.start? = some start)
    (hl : Framed load) (hr : l.Reads start p s)
    (h : l.AgreeBelow start other load (call p s)) :
    Coincide (loadWith other p.location p.value hops) (loadWith load p.location p.value hops)
      s := by
  refine Loading.coincide_loadWith ?_ ?_
  · intro context object hc hv href
    cases hr.inside.current?.symm.trans hc
    exact coincide_object hbegins hstart hl hr h hv (p.members?_of_object hv href)
  · intro object written uri hv href hu hnew
    exact coincide_chase hbegins hstart hl hr h (p.refers?_of_object hv href hu) hnew

/-- A loader runs out of steps only where the loader of nested nodes does. -/
theorem not_exhausted_of_loadWith
    (h : ∀ {location value hops s s'}, ¬ Runs (other location value hops) s (.error .exhausted) s')
    {location : Location} {value : Json} {s s' : Session} :
    ¬ Runs (loadWith other location value hops) s (.error .exhausted) s' := by
  intro hr
  cases nodeRun_of_runs hr with
  | referenceEnds _ _ _ _ hreference =>
    cases hreference with
    | ends _ hresolve =>
      cases hresolve with
      | ends _ _ hchase =>
        cases hchase with
        | ends _ _ _ _ hload => exact h hload
  | objectEnds _ _ _ _ hobject =>
    cases hobject with
    | ends _ hkeywords =>
      obtain ⟨_, _, _, _, _, _, hload⟩ := (keywordsRun_gathers other _ _ _).error hkeywords
      exact h hload

/-- The rank of a call in a load. -/
abbrev rank (l : Load) (call : Call) : Nat :=
  call.rank l.references l.workspace.documents.weight

theorem Reads.rank_lt (hbegins : l.Begins) (hstart : l.start? = some start)
    (hr : l.Reads start p s) {top : Call} (hd : Call.Descends l.references (call p s) top) :
    l.rank (call p s) < l.rank top :=
  hd.rank_lt (hbegins.tries hstart hr.tries).size

/-- More steps than the rank of a call do what any such number of steps does. -/
theorem coincide_loadNode (hbegins : l.Begins) (hstart : l.start? = some start)
    (hr : l.Reads start p s) {n m : Nat} (hn : l.rank (call p s) < n)
    (hm : l.rank (call p s) < m) :
    Coincide (loadNode n p.location p.value hops) (loadNode m p.location p.value hops) s := by
  induction n generalizing m p s hops with
  | zero => exact absurd hn (Nat.not_lt_zero _)
  | succ n ih =>
    cases m with
    | zero => exact absurd hm (Nat.not_lt_zero _)
    | succ m =>
      refine coincide_loadWith hbegins hstart (framed_loadNode m) hr ?_
      intro q t hops hq hd
      have hlt := hq.rank_lt hbegins hstart hd
      exact ih hq (by omega) (by omega)

/-- A loader that stops where another one runs out of steps. -/
def stopping (load : NodeLoader) : NodeLoader := fun location value hops =>
  ExceptT.mk fun s =>
    match (ExceptT.run (load location value hops)).run s with
    | (.ok found, s') => (.ok found, s')
    | (.error _, s') => (.error .fatal, s')

theorem not_exhausted_stopping {location : Location} {value : Json} {s s' : Session} :
    ¬ Runs (stopping load location value hops) s (.error .exhausted) s' := by
  intro h
  change (match (ExceptT.run (load location value hops)).run s with
    | (.ok found, s') => ((.ok found, s') : Except Stop (Option Schema) × Session)
    | (.error _, s') => (.error .fatal, s')) = _ at h
  split at h <;> cases h

theorem coincide_stopping {location : Location} {value : Json}
    (h : ∀ s', ¬ Runs (load location value hops) s (.error .exhausted) s') :
    Coincide (stopping load location value hops) (load location value hops) s := by
  change (match (ExceptT.run (load location value hops)).run s with
    | (.ok found, s') => ((.ok found, s') : Except Stop (Option Schema) × Session)
    | (.error _, s') => (.error .fatal, s')) = _
  rcases hr : (ExceptT.run (load location value hops)).run s with ⟨e | found, s'⟩
  · cases e with
    | fatal => rfl
    | exhausted => exact absurd hr (h s')
  · rfl

/-- More steps than the rank of a call do not run out. -/
theorem not_exhausted_of_rank_lt (hbegins : l.Begins) (hstart : l.start? = some start)
    (hr : l.Reads start p s) {n : Nat} (hn : l.rank (call p s) < n) {s' : Session} :
    ¬ Runs (loadNode n p.location p.value hops) s (.error .exhausted) s' := by
  induction n generalizing p s hops s' with
  | zero => exact absurd hn (Nat.not_lt_zero _)
  | succ n ih =>
    intro hrun
    have hsame : Coincide (loadWith (stopping (loadNode n)) p.location p.value hops)
        (loadWith (loadNode n) p.location p.value hops) s := by
      refine coincide_loadWith hbegins hstart (framed_loadNode n) hr ?_
      intro q t hops hq hd
      have hlt := hq.rank_lt hbegins hstart hd
      exact coincide_stopping fun t' => ih hq (by omega)
    exact not_exhausted_of_loadWith not_exhausted_stopping (hsame.trans hrun)

theorem rank_lt_stepLimit (hbegins : l.Begins) (hstart : l.start? = some start) :
    l.rank (call start s) < l.workspace.stepLimit := by
  have hsize : start.value.size ≤ l.workspace.documents.weight :=
    (hbegins.tries hstart .start).size
  have hfresh := Nat.le_trans (Call.fresh_le l.references (call start s)) l.length_references_le
  have hlimit : l.workspace.stepLimit = (l.workspace.documents.weight + 2) ^ 3 := rfl
  rw [rank, Call.rank, hlimit]
  generalize l.workspace.documents.weight = n at hsize hfresh ⊢
  calc (call start s).fresh l.references * (n + 1) + start.value.size
      ≤ n * n * (n + 1) + n := Nat.add_le_add (Nat.mul_le_mul_right _ hfresh) hsize
    _ < n * n * (n + 1) + n + (5 * n * n + 11 * n + 8) := Nat.lt_add_of_pos_right (by omega)
    _ = (n + 2) ^ 3 := by ring

theorem ne_exhausted_of_conclude {uri : Uri} {outcome : Except Stop (Option Schema)}
    {s' : Session} (h : outcome ≠ .error .exhausted) :
    (Workspace.conclude uri outcome s').1 ≠ .error .exhausted := by
  unfold Workspace.conclude
  rcases outcome with (_ | _) | _ | _
  · simp
  · exact absurd rfl h
  · simp
  · dsimp only
    split <;> simp

theorem reads_start (hstart : l.start? = some start) : l.Reads start start l.session := by
  obtain ⟨found, _, rfl⟩ := Option.map_eq_some_iff.mp hstart
  exact ⟨.start, l.inside⟩

/-- The reading of a load has a result that further steps do not change. -/
theorem Begins.settles (hbegins : l.Begins) (hstart : l.start? = some start) :
    ∃ r s', r ≠ .error .exhausted ∧
      (∀ steps, l.workspace.stepLimit ≤ steps →
        Runs (loadNode steps start.location start.value 0) l.session r s') ∧
      l.run = Workspace.conclude l.uri r s' := by
  have hreads := reads_start hstart
  have hrank : l.rank (call start l.session) < l.workspace.stepLimit :=
    rank_lt_stepLimit hbegins hstart
  obtain ⟨found, hlocate, rfl⟩ := Option.map_eq_some_iff.mp hstart
  rcases hr : (ExceptT.run (l.reading found)).run l.session with ⟨r, s'⟩
  refine ⟨r, s', ?_, fun steps hsteps => ?_, ?_⟩
  · rintro rfl
    exact not_exhausted_of_rank_lt hbegins hstart hreads hrank hr
  · exact (coincide_loadNode hbegins hstart hreads (by omega) hrank).trans hr
  · rw [Load.run, hlocate]
    simp only [hr]

/-- No load fails for want of steps. -/
theorem Begins.ne_exhausted (hbegins : l.Begins) : l.run.1 ≠ .error .exhausted := by
  cases hstart : l.start? with
  | none =>
    rw [Load.run, Option.map_eq_none_iff.mp hstart]
    simp
  | some start =>
    obtain ⟨r, s', hr, _, hconclude⟩ := hbegins.settles hstart
    rw [hconclude]
    exact ne_exhausted_of_conclude hr

end Load

namespace Request

open Loading

variable {policy : Policy} {w : Workspace}

theorem begins_of_load? {request : Request} {l : Load} (h : request.load? policy w = some l) :
    l.Begins :=
  ⟨load?_documentUri h, load?_loaded h⟩

/-- Every request is answered. What a load calls itself with descends in a well-founded order,
in which all references come from a list that the documents fix; and its reading has a result
that does not depend on the number of steps, which is what the load concludes from. -/
theorem terminates (request : Request) (policy : Policy) (w : Workspace) :
    (request.run policy w).1 ≠ .error .exhausted ∧
      ∀ l start, request.load? policy w = some l → l.start? = some start →
        l.references.length ≤ l.workspace.documents.weight * l.workspace.documents.weight ∧
        WellFounded (Call.Descends l.references) ∧
        l.Reads start start l.session ∧
        (∀ p s steps hops other, l.Reads start p s →
          l.AgreeBelow start other (loadNode steps) (Load.call p s) →
          Coincide (loadWith other p.location p.value hops)
            (loadNode (steps + 1) p.location p.value hops) s) ∧
        ∃ r s', r ≠ .error .exhausted ∧
          (∀ steps, l.workspace.stepLimit ≤ steps →
            Runs (loadNode steps start.location start.value 0) l.session r s') ∧
          l.run = Workspace.conclude l.uri r s' := by
  constructor
  · cases hl : request.load? policy w with
    | none =>
      obtain ⟨r, hanswer, hrun⟩ := answer_of_load?_none hl
      rw [hrun]
      cases hanswer with
      | cached => simp
      | failed hfailure => simpa using hfailure
    | some l =>
      rw [run_of_load? hl]
      have hrun : l.run.1 ≠ .error .exhausted := (begins_of_load? hl).ne_exhausted
      rcases hanswer : l.run.1 with failure | _
      · intro heq
        cases heq
        exact hrun hanswer
      · simp [Except.map]
  · intro l start hl hstart
    have hbegins := begins_of_load? hl
    exact ⟨l.length_references_le, Call.wellFounded_descends _, Load.reads_start hstart,
      fun p s steps hops other hr h =>
        Load.coincide_loadWith hbegins hstart (framed_loadNode steps) hr h,
      hbegins.settles hstart⟩

/-- Two documents that refer to each other, one of them in another scope. -/
def entangled : Workspace :=
  { Workspace.empty with
    documents := .ofList [
      (⟨"http", some "e.com", .segments ["a.json"], none, none⟩,
        .object [("items", .object [("$ref", .string "b.json#/definitions/y")])]),
      (⟨"http", some "e.com", .segments ["b.json"], none, none⟩,
        .object [
          ("definitions", .object [
            ("y", .object [
              ("$id", .string "deep/y.json"),
              ("not", .object [("$ref", .string "../a.json#/items")])])])])] }

theorem terminates_of_entangled : ∃ l start,
    (Request.ofUri ⟨"http", some "e.com", .segments ["a.json"], none, none⟩).load?
        { Policy.standard with maxHops := 1000000 } entangled = some l ∧
      l.start? = some start ∧ 1 < l.references.length ∧
      WellFounded (Call.Descends l.references) ∧ ∃ r s', r ≠ .error .exhausted ∧
        Runs (loadNode l.workspace.stepLimit start.location start.value 0) l.session r s' ∧
        l.run = Workspace.conclude l.uri r s' := by
  have hcheck : ((Request.ofUri ⟨"http", some "e.com", .segments ["a.json"], none,
      none⟩).load? { Policy.standard with maxHops := 1000000 } entangled).any
      (fun l => l.start?.isSome && decide (1 < l.references.length)) = true := by
    decide +kernel
  obtain ⟨l, hl, hpassed⟩ := exists_of_any_load? hcheck
  obtain ⟨hsome, hlength⟩ := Bool.and_eq_true_iff.mp hpassed
  obtain ⟨start, hstart⟩ := Option.isSome_iff_exists.mp hsome
  obtain ⟨_, hdescends, _, _, r, s', hr, hruns, hrun⟩ := (terminates _ _ _).2 l start hl hstart
  exact ⟨l, start, hl, hstart, of_decide_eq_true hlength, hdescends, r, s', hr,
    hruns _ (Nat.le_refl _), hrun⟩

end Request
end SchemaAtlas
