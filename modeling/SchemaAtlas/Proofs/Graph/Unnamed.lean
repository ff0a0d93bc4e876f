import SchemaAtlas.Proofs.Graph.Placed
import SchemaAtlas.Proofs.Pointer.Derived

/-!
# Loads without identifiers

Where no document that a load comes to declares an identifier, every position stands at the path
to its value, in the scope of its document, and a URI is found in the document that it names
only. So each place has its URI to itself, and the load finds no node of another place
(`Load.IsUnnamed.apart`), whichever documents its references lead to.
-/

namespace SchemaAtlas

/-- A document as it is stored, in which no object declares an identifier. -/
structure OpenDocument.IsUnnamed (document : OpenDocument) : Prop where
  stored : document.document.all Json.isStored = true
  anonymous : Lookup.Anonymous document.active.idKeys document.document

instance (document : OpenDocument) : Decidable document.IsUnnamed :=
  decidable_of_iff (document.document.all Json.isStored = true ∧
    Lookup.Anonymous document.active.idKeys document.document)
    ⟨fun h => ⟨h.1, h.2⟩, fun h => ⟨h.stored, h.anonymous⟩⟩

/-- A position at the path to its value, in a document under a URI without a fragment. -/
structure Position.StandsAt (p : Position) (path : List String) : Prop where
  root : p.context.uri.withoutFragment = p.context.uri
  location : p.location = .inDocument p.context.uri path
  value : p.context.document.at? path = some p.value

namespace Lookup

variable {keys : List String} {document value : Json} {root location : Location} {uri : Uri}

/-- A URI is found in the document that it names. -/
theorem base_of_locate_of_anonymous (h : Anonymous keys document)
    (hl : locate keys root document uri = some (location, value)) :
    uri.normalized.withoutFragment = root.document := by
  by_contra hbase
  have hfind : ∀ target, findIdentified keys target root document = none :=
    fun target => findIdentified_of_anonymous target _ document h
  unfold locate at hl
  simp only [hfind, if_neg hbase] at hl
  split at hl <;> cases hl

end Lookup

namespace Position

variable {p q : Position} {path path' : List String} {uri : Uri}

theorem StandsAt.fragment (h : p.StandsAt path) : p.context.uri.fragment = none := by
  rw [← h.root]
  rfl

theorem StandsAt.pointerUri (h : p.StandsAt path) :
    p.location.pointerUri = Location.withPath p.context.uri ⟨path⟩ := by
  rw [h.location]
  rfl

theorem StandsAt.place (h : p.StandsAt path) : p.location.place = (p.context.uri, ⟨path⟩) := by
  rw [h.location]
  rfl

/-- Two places with one URI are the same. -/
theorem StandsAt.place_eq (hp : p.StandsAt path) (hq : q.StandsAt path')
    (h : p.location.pointerUri = q.location.pointerUri) :
    p.location.place = q.location.place := by
  rw [hp.pointerUri, hq.pointerUri] at h
  have huri : p.context.uri = q.context.uri := by
    have hbase := congrArg Uri.withoutFragment h
    rwa [Location.withoutFragment_withPath, Location.withoutFragment_withPath, hp.root,
      hq.root] at hbase
  rw [huri] at h
  rw [hp.place, hq.place, huri, Location.withPath_injective h]

theorem StandsAt.anonymous (h : p.StandsAt path) (hd : p.context.IsUnnamed) :
    Lookup.Anonymous p.context.active.idKeys p.value :=
  Lookup.all_at? hd.anonymous h.value

theorem StandsAt.inner (h : p.StandsAt path) (hd : p.context.IsUnnamed) :
    p.inner = .inDocument p.context.uri path := by
  rw [Position.inner, Lookup.rescope_of_anonymous (h.anonymous hd), h.location]

/-- An object without an identifier answers to the URI of its place only. -/
theorem StandsAt.eq_of_answers (h : p.StandsAt path) (hd : p.context.IsUnnamed)
    (ha : p.answers uri) : uri = p.location.pointerUri := by
  rcases ha with rfl | rfl | ⟨hdeclared, -⟩
  · rfl
  · have hunscoped : p.location.IsUnscoped := by
      rw [h.location]
      exact ⟨rfl, rfl⟩
    refine hunscoped.uri_eq ?_
    rw [h.location]
    exact h.fragment
  · exact absurd (Lookup.declaredId?_of_anonymous (h.anonymous hd)) hdeclared

/-- What is found in a document stands at the path of the URI, in the document that it names. -/
theorem standsAt_of_locate {document : OpenDocument}
    (hroot : document.uri.withoutFragment = document.uri) (hd : document.IsUnnamed)
    {location : Location} {value : Json} (hl : document.locate uri = some (location, value)) :
    ∃ path, uri.normalized.place? = some path ∧
      uri.normalized.withoutFragment = document.uri ∧
      StandsAt ⟨document, location, value⟩ path := by
  have hnormal : document.uri.normalized = document.uri :=
    Uri.normalized_of_fragment_ne (by rw [← hroot]; simp)
  obtain ⟨path, hplace, hat, hlocation⟩ := Lookup.locate_of_anonymous hd.anonymous hl
  have hbase : uri.normalized.withoutFragment = document.uri.normalized :=
    Lookup.base_of_locate_of_anonymous hd.anonymous hl
  rw [hnormal] at hlocation hbase
  exact ⟨path, hplace, hbase, hroot, hlocation, hat⟩

end Position

namespace Library

variable {lib : Library} {start p q : Position} {uri : Uri}

/-- A reference leads to what one of the candidates has at its URI. -/
theorem located_of_target? (h : lib.target? p.context uri = some q) :
    q.context ∈ Loading.candidates (lib.nearby p.context) lib.remote? uri ∧
      q.context.locate uri = some (q.location, q.value) := by
  obtain ⟨document, hdocument, hfind⟩ := List.exists_of_findSome?_eq_some h
  unfold OpenDocument.find? at hfind
  split at hfind
  · rename_i location value hl
    split at hfind
    · cases hfind
      exact ⟨hdocument, hl⟩
    · cases hfind
  · cases hfind

theorem tries_of_meets (h : lib.Meets start p) : lib.Tries start p := by
  induction h with
  | refl => exact .start
  | tail _ hlead ih =>
    cases hlead with
    | nested hm hplace => exact ih.nested hm hplace
    | follows hu hq =>
      obtain ⟨hdocument, hl⟩ := located_of_target? hq
      exact ih.located hu hdocument hl

end Library

namespace Load

variable {l : Load} {p q : Position} {path : List String} {uri : Uri}

/-- No document that the load comes to declares an identifier. -/
def IsUnnamed (l : Load) : Prop := ∀ p, l.Meets p → p.context.IsUnnamed

/-- The documents in which references are looked for are kept under URIs without fragments. -/
theorem Begins.root_of_candidates (h : l.Begins)
    (hp : p.context.uri.withoutFragment = p.context.uri) {document : OpenDocument}
    (hd : document ∈ Loading.candidates (l.library.nearby p.context) l.library.remote? uri) :
    document.uri.withoutFragment = document.uri := by
  have hnearby : ∀ {document}, document ∈ l.library.nearby p.context →
      document.uri.withoutFragment = document.uri := by
    intro document hd
    unfold Library.nearby at hd
    split at hd
    · rw [List.mem_singleton.mp hd]
      exact hp
    · rcases List.mem_pair.mp hd with rfl | rfl
      · exact hp
      · exact h.uri
  unfold Loading.candidates at hd
  split at hd
  · exact hnearby hd
  · rcases List.mem_append.mp hd with hd | hd
    · exact hnearby hd
    · have hremote := Option.mem_toList.mp hd
      rw [h.remote?_eq] at hremote
      obtain ⟨value, -, rfl⟩ := Option.map_eq_some_iff.mp hremote
      exact Uri.withoutFragment_idem uri

/-- A reference leads to the place that its URI names. -/
theorem Begins.standsAt_of_target (h : l.Begins) (hp : p.StandsAt path)
    (hq : l.library.target? p.context uri = some q) (hd : q.context.IsUnnamed) :
    ∃ target, uri.normalized.place? = some target ∧
      uri.normalized.withoutFragment = q.context.uri ∧ q.StandsAt target := by
  obtain ⟨hdocument, hl⟩ := Library.located_of_target? hq
  exact Position.standsAt_of_locate (h.root_of_candidates hp.root hdocument) hd hl

/-- Every position stands at the path to its value. -/
theorem IsUnnamed.standsAt (h : l.IsUnnamed) (hbegins : l.Begins) (hp : l.Meets p) :
    ∃ path, p.StandsAt path := by
  obtain ⟨start, hstart, hmeets⟩ := hp
  induction hmeets with
  | refl =>
    have hunnamed := h start ⟨start, hstart, .refl⟩
    obtain ⟨⟨location, value⟩, hl, rfl⟩ := Option.map_eq_some_iff.mp hstart
    obtain ⟨path, -, -, hstands⟩ := Position.standsAt_of_locate hbegins.uri hunnamed hl
    exact ⟨path, hstands⟩
  | @tail p q hmeets hlead ih =>
    obtain ⟨path, hp⟩ := ih
    have hdocument := h p ⟨start, hstart, hmeets⟩
    have hnext := h q ⟨start, hstart, hmeets.tail hlead⟩
    cases hlead with
    | nested hm hplace =>
      have hat := hp.value
      rw [Position.value_of_members? hm] at hat
      rw [hp.inner hdocument] at hplace
      obtain ⟨more, hlocation, hmore⟩ :=
        Digest.nested_at (Lookup.all_at? hdocument.stored hat) hplace
      refine ⟨path ++ more, hp.root, hlocation, ?_⟩
      change p.context.document.at? (path ++ more) = _
      rw [Json.at?_append, hat]
      exact hmore
    | follows _ hq =>
      obtain ⟨target, -, -, hstands⟩ := hbegins.standsAt_of_target hp hq hnext
      exact ⟨target, hstands⟩

/-- Without identifiers the URIs of places are kept apart. -/
theorem IsUnnamed.apart (h : l.IsUnnamed) (hbegins : l.Begins) : l.Apart where
  answers := by
    intro p q members object hp hq _ _ ha
    obtain ⟨path, hpath⟩ := h.standsAt hbegins hp
    obtain ⟨path', hpath'⟩ := h.standsAt hbegins hq
    exact hpath.place_eq hpath' (hpath.eq_of_answers (h p hp) ha).symm
  follows := by
    intro p q r object hp hq _ hu hr
    obtain ⟨path, hpath⟩ := h.standsAt hbegins hp
    obtain ⟨path', hpath'⟩ := h.standsAt hbegins hq
    have hmeets : l.Meets r := by
      obtain ⟨start, hstart, hp⟩ := hp
      exact ⟨start, hstart, hp.tail (.follows hu hr)⟩
    obtain ⟨target, hplace, hbase, hstands⟩ :=
      hbegins.standsAt_of_target hpath hr (h r hmeets)
    rw [hpath'.pointerUri, Location.normalized_withPath] at hplace hbase
    rw [Location.withoutFragment_withPath, hpath'.root] at hbase
    cases (Uri.place?_withPath _ _).symm.trans hplace
    rw [hstands.place, hpath'.place, hbase]

/-- A load comes to positions of its documents only. -/
theorem Begins.mem_opens (h : l.Begins) (hp : l.Meets p) : p.context ∈ l.opens := by
  obtain ⟨start, hstart, hmeets⟩ := hp
  exact (h.tries hstart (Library.tries_of_meets hmeets)).context

end Load
end SchemaAtlas
