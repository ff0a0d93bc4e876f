import SchemaAtlas.Proofs.Lookup.Orderly

/-!
# Shelves of orderly documents

A shelf has a document for each URI, or none. If its documents are orderly, a URI names the same
position from wherever it is looked up, and so do all URIs under which a position is read.
-/

namespace SchemaAtlas

/-! ## Names -/

/-- Whether no dependency of an object has an empty name. -/
def Json.namesDependencies (value : Json) : Bool :=
  match value.member? "dependencies" with
  | some (.object members) => members.all (! ·.1.isEmpty)
  | _ => true

namespace Digest

/-- A place at which a keyword asks for a schema has a name, and so has a dependency if it was
given one. -/
theorem nestedIn_named {active : DraftSet} {reading : Reading} {location : Location} {value : Json}
    {place : Location × Json}
    (hnamed : reading = .dependencies → ∀ members, value = .object members →
      ∀ entry ∈ members, entry.1 ≠ "")
    (h : place ∈ nestedIn active reading location value) :
    ∃ more, place.1 = location.walk more ∧ "" ∉ more := by
  have hitself : place = (location, value) → ∃ more, place.1 = location.walk more ∧ "" ∉ more := by
    rintro rfl
    exact ⟨[], by simp [Location.walk], List.not_mem_nil⟩
  have helement : ∀ {elements}, place ∈ elementPlaces location 0 elements →
      ∃ more, place.1 = location.walk more ∧ "" ∉ more := by
    intro elements hp
    obtain ⟨i, -, hl⟩ := mem_elementPlaces hp
    refine ⟨[toString i], hl, ?_⟩
    rw [List.mem_singleton]
    intro hblank
    have hdigits := congrArg String.toList hblank
    have hnil : Nat.toDigits 10 i = [] := (Nat.toList_repr).symm.trans hdigits.symm
    exact Nat.toDigits_ne_nil hnil
  have hmember : ∀ {members : List (String × Json)}, (∀ entry ∈ members, entry.1 ≠ "") →
      place ∈ memberPlaces location members →
      ∃ more, place.1 = location.walk more ∧ "" ∉ more := by
    intro members hn hp
    obtain ⟨name, hm, hl⟩ := mem_memberPlaces hp
    exact ⟨[name], hl, fun hblank => hn _ hm (List.mem_singleton.mp hblank).symm⟩
  unfold nestedIn at h
  split at h
  · exact hitself (List.mem_singleton.mp h)
  · exact helement h
  · exact hitself (List.mem_singleton.mp h)
  · exact helement h
  · exact hitself (List.mem_singleton.mp h)
  · refine hmember (fun entry he => ?_) h
    simpa using (List.mem_filter.mp he).2
  · exact hmember (fun entry he => hnamed rfl _ rfl entry (List.mem_filter.mp he).1) h
  · split at h
    · exact helement (List.mem_filter.mp h).1
    · cases h
  · split at h
    · exact hitself (List.mem_singleton.mp h)
    · cases h
  · cases h

theorem key_of_catalog : ∀ entry ∈ Catalog.entries, entry.key ≠ "" ∧
    (entry.reading = .dependencies → entry.key = "dependencies") := by
  decide +kernel

theorem nested_named {active : DraftSet} {location : Location} {members : List (String × Json)}
    {place : Location × Json} (hs : (Json.object members).all Json.isStored = true)
    (hn : (Json.object members).namesDependencies = true)
    (h : place ∈ nested active location members) :
    ∃ more, place.1 = location.walk more ∧ "" ∉ more := by
  obtain ⟨⟨key, value⟩, hm, h⟩ := List.mem_flatMap.mp h
  obtain ⟨entry, he, hplace⟩ := List.mem_flatMap.mp h
  obtain ⟨hentry, rfl⟩ := mem_applicable (List.mem_filter.mp he).1
  obtain ⟨hkey, hdependencies⟩ := key_of_catalog entry hentry
  have hnamed : entry.reading = .dependencies → ∀ members, value = .object members →
      ∀ entry ∈ members, entry.1 ≠ "" := by
    rintro hr dependencies rfl dependency hd
    have hkeys : (Entries.keys members).Nodup := by
      simpa [Json.isStored] using Json.all_self hs
    have hget := Entries.get?_of_mem hkeys hm
    simp only [Json.namesDependencies, Json.member?, ← hdependencies hr, hget] at hn
    simpa using List.all_eq_true.mp hn dependency hd
  obtain ⟨more, hl, hmore⟩ := nestedIn_named hnamed hplace
  refine ⟨entry.key :: more, ?_, ?_⟩
  · rw [hl, Location.child_eq_walk, Location.walk_walk, List.singleton_append]
  · intro hm
    rcases List.mem_cons.mp hm with heq | hm
    · exact hkey heq.symm
    · exact hmore hm

end Digest

/-! ## Positions on a shelf -/

/-- The documents at URIs. -/
abbrev Shelf := Uri → Option OpenDocument

/-- In every document identifiers are found where they are declared, and no dependency has an empty
name. -/
structure Shelf.Orderly (shelf : Shelf) : Prop where
  uri : ∀ {uri document}, shelf uri = some document → document.uri = uri
  orderly : ∀ {uri : Uri} {document}, shelf uri.withoutFragment = some document → document.Orderly
  named : ∀ {uri : Uri} {document}, shelf uri.withoutFragment = some document →
    document.document.all Json.namesDependencies = true

namespace Shelf

/-- The position that a URI names. -/
def at? (shelf : Shelf) (uri : Uri) : Option Position :=
  (shelf uri.withoutFragment).bind (·.find? uri)

/-- A document of the shelf. -/
structure Has (shelf : Shelf) (document : OpenDocument) : Prop where
  root : document.uri.withoutFragment = document.uri
  found : shelf document.uri = some document

/-- A position of a document of the shelf, whose path leads to it. -/
structure Holds (shelf : Shelf) (p : Position) : Prop extends shelf.Has p.context where
  followed : p.context.follow p.location.path.segments = some (p.location, p.value)
  named : "" ∉ p.location.path.segments

variable {shelf : Shelf} {document : OpenDocument} {uri : Uri} {p : Position}

theorem Orderly.has (hshelf : shelf.Orderly) (h : shelf uri.withoutFragment = some document) :
    shelf.Has document := by
  have huri := hshelf.uri h
  exact ⟨by rw [huri, Uri.withoutFragment_idem], by rw [huri]; exact h⟩

theorem Has.found_base (h : shelf.Has document) :
    shelf document.uri.withoutFragment = some document := by
  rw [h.root]
  exact h.found

theorem Orderly.holds_of_locate (hshelf : shelf.Orderly) (h : shelf.Has document)
    {location : Location} {value : Json} (hl : document.locate uri = some (location, value)) :
    uri.withoutFragment = document.uri ∧ shelf.Holds ⟨document, location, value⟩ := by
  obtain ⟨hbase, hfollow, hnamed⟩ := (hshelf.orderly h.found_base).locate h.root hl
  exact ⟨hbase, h, hfollow, hnamed⟩

/-- A URI of a document of the shelf names what the document has for it. -/
theorem Has.at?_eq (h : shelf.Has document) (hu : uri.withoutFragment = document.uri) :
    shelf.at? uri = document.find? uri := by
  rw [at?, hu, h.found, Option.bind_some]

theorem Orderly.holds_of_at? (hshelf : shelf.Orderly) (h : shelf.at? uri = some p) :
    shelf.Holds p ∧ p.context.accepts p.value = true := by
  obtain ⟨document, hd, hfind⟩ := Option.bind_eq_some_iff.mp h
  unfold OpenDocument.find? at hfind
  split at hfind
  · rename_i location value hl
    split at hfind
    · rename_i haccepts
      cases hfind
      exact ⟨(hshelf.holds_of_locate (hshelf.has hd) hl).2, haccepts⟩
    · cases hfind
  · cases hfind

namespace Holds

variable (h : shelf.Holds p)

include h

theorem at?_of_locate (haccepts : p.context.accepts p.value = true)
    (hu : uri.withoutFragment = p.context.uri)
    (hl : p.context.locate uri = some (p.location, p.value)) : shelf.at? uri = some p := by
  rw [h.at?_eq hu, OpenDocument.find?, hl]
  exact if_pos haccepts

/-- A URI with the path of a position that can be read names it. -/
theorem at?_withPath (haccepts : p.context.accepts p.value = true) {base : Uri}
    (hb : base.withoutFragment = p.context.uri) :
    shelf.at? (Location.withPath base p.location.path) = some p := by
  refine h.at?_of_locate haccepts (by rw [Location.withoutFragment_withPath, hb]) ?_
  rw [OpenDocument.locate_withPath h.root hb, if_neg h.named]
  exact h.followed

theorem local_location (hshelf : shelf.Orderly) : p.location.Local p.context.uri :=
  ((hshelf.orderly h.found_base).follow h.root h.followed).1

theorem at?_pointerUri (hshelf : shelf.Orderly) (haccepts : p.context.accepts p.value = true) :
    shelf.at? p.location.pointerUri = some p := by
  rw [Location.pointerUri, (h.local_location hshelf).document]
  exact h.at?_withPath haccepts h.root

theorem at?_uri (hshelf : shelf.Orderly) (haccepts : p.context.accepts p.value = true) :
    shelf.at? p.location.uri = some p := by
  obtain ⟨hlocal, hscope⟩ := (hshelf.orderly h.found_base).follow h.root h.followed
  rcases hlocal.uri_cases h.root with ⟨base, hb, heq⟩ | ⟨hempty, -, hfragment⟩
  · rw [heq]
    exact h.at?_withPath haccepts hb
  · exact absurd (hscope hempty) hfragment

/-- The URI that a position declares for itself names it. -/
theorem at?_inner (hshelf : shelf.Orderly) (haccepts : p.context.accepts p.value = true) {id : String}
    (hid : Lookup.declaredId? p.context.active.idKeys p.value = some id) :
    (∃ inner, p.location.withId id = .ok inner ∧ p.inner = inner) ∧
      shelf.at? p.inner.uri = some p := by
  obtain ⟨-, uri, hresolve, hbase, hlocate⟩ := (hshelf.orderly h.found_base).declared h.followed hid
  have hwith : p.location.withId id = .ok { p.location with scope := uri, scopePath := .root } := by
    rw [Location.withId, hresolve]
    rfl
  have hinner : p.inner = { p.location with scope := uri, scopePath := .root } := by
    simp only [Position.inner, Lookup.rescope, hid, hwith]
  have hlocal : p.inner.Local p.context.uri := (hshelf.orderly h.found_base).rescope h.root
    h.followed (h.local_location hshelf)
  refine ⟨⟨_, hwith, hinner⟩, ?_⟩
  rcases hlocal.uri_cases h.root with ⟨base, hb, heq⟩ | ⟨-, heq, -⟩
  · rw [heq, p.inner_path]
    exact h.at?_withPath haccepts hb
  · rw [heq, hinner]
    exact h.at?_of_locate haccepts hbase hlocate

/-- All URIs that an object answers to name it. -/
theorem at?_of_answers (hshelf : shelf.Orderly) (haccepts : p.context.accepts p.value = true)
    (ha : p.answers uri) : shelf.at? uri = some p := by
  rcases ha with rfl | rfl | ⟨hdeclares, rfl⟩
  · exact h.at?_pointerUri hshelf haccepts
  · exact h.at?_uri hshelf haccepts
  · obtain ⟨id, hid⟩ := Option.ne_none_iff_exists'.mp hdeclares
    exact (h.at?_inner hshelf haccepts hid).2

theorem nested (hshelf : shelf.Orderly) {members : List (String × Json)} {place : Location × Json}
    (hv : p.value = .object members)
    (hp : place ∈ Digest.nested p.context.active p.inner members) :
    shelf.Holds ⟨p.context, place.1, place.2⟩ := by
  have horderly := hshelf.orderly h.found_base
  have hat := OpenDocument.at?_of_follow h.followed
  have hstored := Lookup.all_at? horderly.stored hat
  have hnamed := Json.all_self (Lookup.all_at? (hshelf.named h.found_base) hat)
  have hfollow := h.followed
  rw [hv] at hstored hnamed hfollow
  have hinner : Lookup.rescope p.context.active.idKeys p.location (.object members) = p.inner := by
    rw [Position.inner, hv]
  obtain ⟨l, hlies, -, heq⟩ := Digest.nested_lies hp (congrArg Location.place hinner)
  cases heq hinner fun key value hm hmap => horderly.quiet hfollow hm hmap
  obtain ⟨more, hpath, hnavigate⟩ := hlies.navigate hstored
  obtain ⟨more', hl, hmore⟩ := Digest.nested_named hstored hnamed hp
  refine ⟨h.toHas, ?_, ?_⟩
  · change p.context.follow place.1.path.segments = some place
    rw [hpath, OpenDocument.follow_append, hfollow]
    exact hnavigate
  · rw [hl]
    intro hm
    rcases List.mem_append.mp hm with hm | hm
    · rw [p.inner_path] at hm
      exact h.named hm
    · exact hmore hm

end Holds

/-! ## Libraries -/

/-- A library whose documents are those of the shelf. -/
structure Stocks (shelf : Shelf) (lib : Library) : Prop where
  first : shelf.Has lib.first
  remote? : lib.remote? = shelf

/-- Other documents do not have what a URI names. -/
theorem Orderly.find?_eq_none (hshelf : shelf.Orderly) (h : shelf.Has document)
    (hu : uri.withoutFragment ≠ document.uri) : document.find? uri = none := by
  unfold OpenDocument.find?
  cases hl : document.locate uri with
  | none => rfl
  | some place => exact absurd (hshelf.holds_of_locate h hl).1 hu

theorem Orderly.has_of_candidates (hshelf : shelf.Orderly) {lib : Library} (hlib : shelf.Stocks lib)
    {context : OpenDocument} (hcontext : shelf.Has context)
    (hd : document ∈ Loading.candidates (lib.nearby context) lib.remote? uri) :
    shelf.Has document := by
  have hnearby : ∀ d ∈ lib.nearby context, shelf.Has d := by
    intro d hd
    unfold Library.nearby at hd
    split at hd
    · exact List.mem_singleton.mp hd ▸ hcontext
    · rcases List.mem_cons.mp hd with rfl | hd
      · exact hcontext
      · exact List.mem_singleton.mp hd ▸ hlib.first
  unfold Loading.candidates at hd
  split at hd
  · exact hnearby _ hd
  · rcases List.mem_append.mp hd with hd | hd
    · exact hnearby _ hd
    · rw [hlib.remote?] at hd
      exact hshelf.has (Option.mem_toList.mp hd)

/-- Of some documents the one that the URI names has what it names. -/
theorem Orderly.findSome?_eq (hshelf : shelf.Orderly) {documents : List OpenDocument}
    (hall : ∀ d ∈ documents, shelf.Has d) :
    documents.findSome? (·.find? uri) =
      if documents.any (·.uri = uri.withoutFragment) then shelf.at? uri else none := by
  induction documents with
  | nil => rfl
  | cons d rest ih =>
    have hrest := ih fun d hd => hall d (List.mem_cons_of_mem _ hd)
    have hd := hall d List.mem_cons_self
    rw [List.findSome?_cons, List.any_cons, hrest]
    by_cases hu : d.uri = uri.withoutFragment
    · have hat : shelf.at? uri = d.find? uri := by
        rw [at?, ← hu, hd.found, Option.bind_some]
      rw [hat]
      cases d.find? uri <;> simp [hu]
    · rw [hshelf.find?_eq_none hd (Ne.symm hu)]
      simp [hu]

/-- A library has for a URI what the shelf has. -/
theorem Orderly.target?_eq (hshelf : shelf.Orderly) {lib : Library} (hlib : shelf.Stocks lib)
    {context : OpenDocument} (hcontext : shelf.Has context) :
    lib.target? context uri = shelf.at? uri := by
  rw [Library.target?, hshelf.findSome?_eq fun d hd => hshelf.has_of_candidates hlib hcontext hd,
    Loading.candidates, hlib.remote?]
  split
  · rfl
  · rename_i hnear
    rw [List.any_append, Bool.eq_false_iff.mpr hnear, Bool.false_or]
    cases hd : shelf uri.withoutFragment with
    | none => simp [at?, hd]
    | some d => simp [hshelf.uri hd]

end Shelf
end SchemaAtlas
