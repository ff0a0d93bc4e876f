import SchemaAtlas.Proofs.Loading.Termination
import SchemaAtlas.Proofs.Lookup.Declared

/-!
# The documents behind a load

A load may turn an available document into a loaded one, but no URI comes to stand for another
document (`Load.find?_run`). So calls for URIs, one after the other, see the same documents. What a
load reads stands in these: a test that all values of the documents pass is passed by the value at
every position that the load meets (`Load.Begins.upholds`).
-/

namespace SchemaAtlas

/-! ## What documents there are -/

namespace Session

variable {s s' : Session} {uri : Uri}

theorem Opens.find?_eq {document : OpenDocument} (h : Opens uri s document s') :
    s'.documents.find? = s.documents.find? := by
  cases h with
  | again => rfl
  | loaded => rw [documents_openDocument]
  | fetched _ hl hf =>
    rw [documents_openDocument]
    exact Documents.find?_of_fetch? hl hf

end Session

namespace Loading

open LoadM Session

/-- A loader that leaves to every URI its document. -/
def Conserving (load : NodeLoader) : Prop :=
  ∀ {location : Location} {value : Json} {hops : Nat} {s s' : Session}
    {r : Except Stop (Option Schema)}, Runs (load location value hops) s r s' →
    s'.documents.find? = s.documents.find?

variable {load : NodeLoader} {location : Location} {uri : Uri} {hops : Nat} {s s' : Session}

theorem Conserving.visits (hl : Conserving load) {draft : Draft} {asked : Location → Json → Prop}
    {nodes : List Schema} (h : Digest.Visits (nestedLoad load) draft asked s nodes s') :
    s'.documents.find? = s.documents.find? := by
  induction h with
  | start => rfl
  | issue _ _ _ _ _ _ ih => exact ih
  | boolean _ _ ih => exact ih
  | load _ _ hr ih => exact (hl hr).trans ih

theorem Conserving.searches (hl : Conserving load) {documents : List OpenDocument}
    (h : Searches load uri hops s documents s') : s'.documents.find? = s.documents.find? := by
  induction h with
  | start => rfl
  | absent _ _ ih => exact ih
  | refused _ _ hr ih => exact (hl hr).trans ih
  | opened _ ho ih => exact ho.find?_eq.trans ih

theorem Conserving.resolve (hl : Conserving load) {written : String} {r : Except Stop Reference}
    (h : ResolveRun load location written uri hops s r s') :
    s'.documents.find? = s.documents.find? := by
  have hchase : ∀ {r s₁}, ChaseRun load location uri hops (s.beginResolving uri) r s₁ →
      s₁.documents.find? = s.documents.find? := by
    intro r s₁ hc
    cases hc with
    | reached _ _ hs _ hr | ends _ _ hs _ hr =>
      have hsearched := hl.searches hs
      exact (hl hr).trans hsearched
    | lost _ hs _ =>
      have hsearched := hl.searches hs
      exact hsearched
  cases h with
  | known | reading | tooFar | cycle => rfl
  | chased _ _ hc | ends _ _ hc =>
    have hchased := hchase hc
    exact hchased

theorem Conserving.reference (hl : Conserving load) {draft : Draft} {written : String}
    {r : Except Stop Schema} (h : ReferenceRun load draft location written hops s r s') :
    s'.documents.find? = s.documents.find? := by
  cases h with
  | malformed => rfl
  | refers _ hr | ends _ hr =>
    have hresolved := hl.resolve hr
    exact hresolved

theorem Conserving.object (hl : Conserving load) {context : OpenDocument}
    {object : List (String × Json)} {r : Except Stop Schema}
    (h : ObjectRun load context location object s r s') :
    s'.documents.find? = s.documents.find? := by
  have hidentified : ∀ {keys inner declared s₁},
      Identified keys location object s inner declared s₁ →
      s₁.documents.find? = s.documents.find? := by
    intro keys inner declared s₁ hid
    cases hid <;> rfl
  cases h with
  | @finished inner _ _ _ _ hid hread =>
    obtain ⟨_, hvisits, -⟩ := (keywordsRun_gathers load context inner object).ok hread
    have hvisited := hl.visits hvisits
    exact hvisited.trans (hidentified hid :)
  | @ends inner _ _ _ _ hid hread =>
    obtain ⟨_, _, _, _, hvisits, -, hr⟩ :=
      (keywordsRun_gathers load context inner object).error hread
    have hended := (hl hr).trans (hl.visits hvisits)
    exact hended.trans (hidentified hid :)

theorem conserving_loadWith (hl : Conserving load) : Conserving (loadWith load) := by
  intro location value hops s s' r h
  cases nodeRun_of_runs h with
  | outside | known | badReference | boolean | refused => rfl
  | reference _ _ _ _ hr => exact hl.reference hr
  | referenceEnds _ _ _ _ hr => exact hl.reference hr
  | object _ _ _ _ hr => exact hl.object hr
  | objectEnds _ _ _ _ hr => exact hl.object hr

theorem conserving_loadNode (steps : Nat) : Conserving (loadNode steps) := by
  induction steps with
  | zero =>
    intro location value hops s s' r h
    obtain ⟨-, rfl⟩ := runs_throw.mp h
    rfl
  | succ steps ih => exact conserving_loadWith ih

end Loading

theorem Load.documents_session (l : Load) : l.session.documents = l.workspace.documents :=
  Session.documents_openDocument ..

/-- A load leaves to every URI its document, whatever it comes to. -/
theorem Load.find?_run (l : Load) : l.run.2.documents.find? = l.workspace.documents.find? := by
  have hread : ∀ {start r s}, Runs (l.reading start) l.session r s →
      s.documents.find? = l.workspace.documents.find? := by
    intro start r s hr
    rw [Loading.conserving_loadNode _ hr, l.documents_session]
  cases h : l.run.1 with
  | error failure =>
    rcases Load.run_error h with heq | ⟨_, _, s, -, hr, heq⟩
    · rw [heq]
    · rw [heq]
      exact hread hr
  | ok result =>
    obtain ⟨_, s, -, hr, -, -, heq⟩ := Load.run_ok h
    rw [heq]
    exact hread hr

namespace Request

variable {policy : Policy} {w : Workspace}

/-- The document that a request brings with it. -/
def document? : Request → Option Json
  | .ofDocument document | .named _ document => some document
  | .ofText text => Json.read text
  | .ofUri _ => none

/-- A call for a URI brings no document with it. -/
theorem find?_load?_ofUri {uri : Uri} {l : Load} (h : (ofUri uri).load? policy w = some l) :
    l.workspace.documents.find? = w.documents.find? := by
  unfold load? at h
  dsimp only at h
  split at h
  · cases h
  · split at h
    · cases h
      rfl
    · rename_i hnone
      obtain ⟨found, hf, rfl⟩ := Option.map_eq_some_iff.mp h
      exact Documents.find?_of_fetch? hnone hf

/-- The documents behind a load are those of the workspace and the one that the request brings. -/
theorem find?_load? {request : Request} {l : Load} (h : request.load? policy w = some l)
    {uri : Uri} {document : Json} (hd : l.workspace.documents.find? uri = some document) :
    w.documents.find? uri = some document ∨ request.document? = some document := by
  have hgiven : ∀ {uri' : Uri} {given : Json}, loadAt? policy w uri' given = some l →
      w.documents.find? uri = some document ∨ some given = some document := by
    intro uri' given h
    unfold loadAt? at h
    dsimp only at h
    split at h
    · cases h
    · have hregister : ∀ {d : Documents} {other : Uri},
          (d.register other given).find? uri = some document →
          d.find? uri = some document ∨ some given = some document := by
        intro d other hfound
        rw [Documents.find?_register] at hfound
        split at hfound
        · exact Or.inr hfound
        · exact Or.inl hfound
      cases h
      dsimp only at hd
      split at hd
      · rcases hregister hd with hd | hd
        · exact hregister hd
        · exact Or.inr hd
      · exact hregister hd
  cases request with
  | ofDocument given => exact hgiven h
  | ofText text =>
    obtain ⟨given, hread, h⟩ := Option.bind_eq_some_iff.mp h
    rw [document?, hread]
    exact hgiven h
  | named _ given => exact hgiven h
  | ofUri uri' => exact Or.inl (find?_load?_ofUri h ▸ hd)

/-- After a call for a URI there are the documents that were there before. -/
theorem find?_ofUri (policy : Policy) (uri : Uri) (w : Workspace) :
    ((ofUri uri).run policy w).2.documents.find? = w.documents.find? := by
  cases hl : (ofUri uri).load? policy w with
  | none =>
    obtain ⟨r, -, heq⟩ := answer_of_load?_none hl
    rw [heq]
  | some l =>
    rw [run_of_load? hl, l.find?_run]
    exact find?_load?_ofUri hl

/-- After a request there are the documents that were there before, and the one it brought. -/
theorem find?_run (request : Request) {uri : Uri} {document : Json}
    (h : (request.run policy w).2.documents.find? uri = some document) :
    w.documents.find? uri = some document ∨ request.document? = some document := by
  cases hl : request.load? policy w with
  | none =>
    obtain ⟨r, -, heq⟩ := answer_of_load?_none hl
    rw [heq] at h
    exact Or.inl h
  | some l =>
    rw [run_of_load? hl] at h
    exact find?_load? hl (l.find?_run ▸ h)

end Request

/-! ## What holds of all values -/

/-- What all values of an object have, the values have at which schemas are asked for in it. -/
theorem Digest.all_of_nested {test : Json → Bool} {active : DraftSet} {location : Location}
    {object : List (String × Json)} {place : Location × Json}
    (h : (Json.object object).all test = true) (hp : place ∈ nested active location object) :
    place.2.all test = true := by
  have helement : ∀ {location : Location} {elements : List Json},
      (Json.array elements).all test = true → place ∈ elementPlaces location 0 elements →
      place.2.all test = true := by
    intro location elements h hp
    obtain ⟨⟨value, i⟩, hm, rfl⟩ := List.mem_map.mp hp
    exact Json.all_of_mem_elements (Bool.and_eq_true_iff.mp h).2 (List.fst_mem_of_mem_zipIdx hm)
  have hmember : ∀ {location : Location} {members kept : List (String × Json)},
      (Json.object members).all test = true → kept ⊆ members →
      place ∈ memberPlaces location kept → place.2.all test = true := by
    intro location members kept h hkept hp
    obtain ⟨⟨name, value⟩, hm, rfl⟩ := List.mem_map.mp hp
    exact Json.all_of_mem_members (Bool.and_eq_true_iff.mp h).2 (hkept hm)
  obtain ⟨⟨key, value⟩, hm, hp⟩ := List.mem_flatMap.mp hp
  obtain ⟨entry, -, hp⟩ := List.mem_flatMap.mp hp
  have hvalue : value.all test = true :=
    Json.all_of_mem_members (Bool.and_eq_true_iff.mp h).2 hm
  unfold nestedIn at hp
  split at hp
  · rw [List.mem_singleton.mp hp]
    exact hvalue
  · exact helement hvalue hp
  · rw [List.mem_singleton.mp hp]
    exact hvalue
  · exact helement hvalue hp
  · rw [List.mem_singleton.mp hp]
    exact hvalue
  · exact hmember hvalue (List.filter_subset_self _) hp
  · exact hmember hvalue (List.filter_subset_self _) hp
  · split at hp
    · exact helement hvalue (List.mem_filter.mp hp).1
    · cases hp
  · split at hp
    · rw [List.mem_singleton.mp hp]
      exact hvalue
    · cases hp
  · cases hp

theorem Lookup.Lies.all {test : Json → Bool} {keys : List String} {place : Location × Json}
    {location : Location} {value : Json} (h : Lies keys place location value)
    (ht : value.all test = true) : place.2.all test = true := by
  induction h with
  | here => exact ht
  | member hm _ ih => exact ih (Json.all_of_mem_members (Bool.and_eq_true_iff.mp ht).2 hm)
  | element hi _ ih =>
    exact ih (Json.all_of_mem_elements (Bool.and_eq_true_iff.mp ht).2 (List.mem_of_getElem? hi))

/-- What all values of a document have, the value has that a URI names in it. -/
theorem OpenDocument.all_of_locate {test : Json → Bool} {document : OpenDocument} {uri : Uri}
    {place : Location × Json} (h : document.locate uri = some place)
    (ht : document.document.all test = true) : place.2.all test = true := by
  have hidentified : ∀ {target : Uri} {place : Location × Json},
      Lookup.findIdentified document.active.idKeys target (.ofDocument document.uri)
        document.document = some place → place.2.all test = true := by
    intro target place h
    rw [Lookup.findIdentified_eq_find? rfl] at h
    exact (Lookup.mem_located.mp (List.mem_of_find?_eq_some h)).all ht
  have hnavigate : ∀ {location : Location} {value : Json} {path : List String},
      value.all test = true →
      Lookup.navigate document.active.idKeys location value path = some place →
      place.2.all test = true := fun hv h =>
    Lookup.all_at? hv (Lookup.navigate_value h)
  unfold locate Lookup.locate at h
  dsimp only at h
  split at h
  · split at h
    · cases h
      exact ht
    · exact hnavigate ht h
    · exact hidentified h
  · split at h
    · rename_i hfound
      cases h
      exact hidentified hfound
    · split at h
      · split at h
        · rename_i hfound
          exact hnavigate (hidentified hfound) h
        · cases h
      · cases h

/-- All values of a position pass a test, and all of its document. -/
structure Position.Upholds (test : Json → Bool) (p : Position) : Prop where
  document : p.context.document.all test = true
  value : p.value.all test = true

/-- All values of the documents in a library pass a test. -/
structure Library.Upholds (test : Json → Bool) (lib : Library) : Prop where
  first : lib.first.document.all test = true
  remote : ∀ {uri document}, lib.remote? uri = some document → document.document.all test = true

namespace Library

variable {test : Json → Bool} {lib : Library} {start p q : Position}

theorem Upholds.candidate (h : lib.Upholds test) {context document : OpenDocument} {uri : Uri}
    (hc : context.document.all test = true)
    (hd : document ∈ Loading.candidates (lib.nearby context) lib.remote? uri) :
    document.document.all test = true := by
  have hnearby : ∀ document ∈ lib.nearby context, document.document.all test = true := by
    intro document hd
    unfold nearby at hd
    split at hd
    · rw [List.mem_singleton.mp hd]
      exact hc
    · rcases List.mem_pair.mp hd with rfl | rfl
      · exact hc
      · exact h.first
  unfold Loading.candidates at hd
  split at hd
  · exact hnearby document hd
  · rcases List.mem_append.mp hd with hd | hd
    · exact hnearby document hd
    · exact h.remote (Option.mem_toList.mp hd)

theorem Upholds.leads (h : lib.Upholds test) (hp : p.Upholds test) (hstep : lib.Leads p q) :
    q.Upholds test := by
  cases hstep with
  | nested hm hplace =>
    refine ⟨hp.document, Digest.all_of_nested ?_ hplace⟩
    rw [← Position.value_of_members? hm]
    exact hp.value
  | @follows _ uri _ htarget =>
    obtain ⟨document, hd, hfind⟩ := List.exists_of_findSome?_eq_some htarget
    unfold OpenDocument.find? at hfind
    split at hfind
    · rename_i hlocate
      split at hfind
      · cases hfind
        have hdocument := h.candidate hp.document hd
        exact ⟨hdocument, OpenDocument.all_of_locate hlocate hdocument⟩
      · cases hfind
    · cases hfind

theorem Upholds.meets (h : lib.Upholds test) (hp : start.Upholds test) (hmeets : lib.Meets start p) :
    p.Upholds test := by
  induction hmeets with
  | refl => exact hp
  | tail _ hstep ih => exact h.leads ih hstep

end Library

namespace Load

variable {test : Json → Bool} {l : Load} {p : Position}

theorem Begins.library_upholds (h : l.Begins)
    (ht : ∀ uri document, l.workspace.documents.find? uri = some document →
      document.all test = true) : l.library.Upholds test where
  first := ht l.documentUri l.document (by rw [Documents.find?, h.loaded, Option.some_or])
  remote := by
    intro uri document hr
    rw [h.remote?_eq] at hr
    obtain ⟨value, hv, rfl⟩ := Option.map_eq_some_iff.mp hr
    exact ht uri value hv

/-- A test that all values of the documents pass is passed wherever the load comes to. -/
theorem Begins.upholds (h : l.Begins)
    (ht : ∀ uri document, l.workspace.documents.find? uri = some document →
      document.all test = true) {start : Position} (hstart : l.start? = some start)
    (hmeets : l.library.Meets start p) : p.Upholds test := by
  obtain ⟨place, hlocate, rfl⟩ := Option.map_eq_some_iff.mp hstart
  have hlibrary := h.library_upholds ht
  exact hlibrary.meets ⟨hlibrary.first, OpenDocument.all_of_locate hlocate hlibrary.first⟩ hmeets

end Load
end SchemaAtlas
