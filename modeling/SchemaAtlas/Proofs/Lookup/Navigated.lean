import SchemaAtlas.Proofs.Lookup.Declared

/-!
# Looking schemas up at their own places

The reading of keywords starts a scope at schemas only, a look-up that follows a path does so
at every object, the maps of schemas among them. `OpenDocument.locate_pointerUri` says what
this comes to for a schema that is looked up under the pointer URI of its own location: its
value is found at its place, and with its very location, it and the schemas above it, exactly
if no map on the way starts a scope.
-/

namespace SchemaAtlas

theorem Location.child_injective (segment : String) :
    Function.Injective fun location : Location => location.child segment := by
  intro l l' h
  obtain ⟨document, scope, ⟨path⟩, ⟨scopePath⟩⟩ := l
  obtain ⟨document', scope', ⟨path'⟩, ⟨scopePath'⟩⟩ := l'
  simpa [child, Pointer.child] using h

/-- A nested place is a member, an element of a member, or a part of a member that is a map. -/
theorem Digest.nested_cases {active : DraftSet} {inner : Location}
    {members : List (String × Json)} {place : Location × Json}
    (h : place ∈ nested active inner members) :
    ∃ key value, (key, value) ∈ members ∧
      (place = (inner.child key, value) ∨
        (∃ elements index, value = .array elements ∧ elements[index]? = some place.2 ∧
          place.1 = (inner.child key).childIndex index) ∨
        ∃ parts name, value = .object parts ∧ (name, place.2) ∈ parts ∧
          place.1 = (inner.child key).child name) := by
  obtain ⟨⟨key, value⟩, hm, h⟩ := List.mem_flatMap.mp h
  obtain ⟨entry, _, hasked⟩ := List.mem_flatMap.mp h
  refine ⟨key, value, hm, ?_⟩
  rcases nestedIn_cases hasked with hplace | ⟨elements, hv, hp⟩ | ⟨parts, name, _, hv, hname, hl⟩
  · exact .inl hplace
  · obtain ⟨index, hi, hl⟩ := mem_elementPlaces hp
    exact .inr (.inl ⟨elements, index, hv, hi, hl⟩)
  · exact .inr (.inr ⟨parts, name, hv, hname, hl⟩)

namespace Position

variable {root p q : Position}

/-- If a map of schemas stands between a schema and one nested in it, the map starts no
scope. -/
def PassesInertMap (p q : Position) : Prop :=
  ∀ key name parts, q.location.path.segments = p.location.path.segments ++ [key, name] →
    p.value.member? key = some (.object parts) →
    Lookup.rescope p.context.active.idKeys (p.inner.child key) (.object parts) = p.inner.child key

theorem inner_path (p : Position) : p.inner.path = p.location.path := Lookup.rescope_path _ _

theorem inner_document (p : Position) : p.inner.document = p.location.document :=
  congrArg Prod.fst (Lookup.place_rescope _ _ _)

/-- A nested schema stands below the schema, in the same document. -/
theorem Nests.place (h : p.Nests q) :
    q.context = p.context ∧ q.location.document = p.location.document ∧
      ∃ more, q.location.path.segments = p.location.path.segments ++ more := by
  obtain ⟨members, _, hcontext, hnested⟩ := h
  refine ⟨hcontext, ?_⟩
  rw [← p.inner_document, ← p.inner_path]
  obtain ⟨key, value, _, hplace | ⟨_, index, _, _, hl⟩ | ⟨_, name, _, _, hl⟩⟩ :=
    Digest.nested_cases hnested
  · have hl : q.location = p.inner.child key := congrArg Prod.fst hplace
    rw [hl]
    exact ⟨rfl, [key], rfl⟩
  · change q.location = _ at hl
    rw [hl]
    exact ⟨rfl, [key, toString index], by simp [Location.childIndex]⟩
  · change q.location = _ at hl
    rw [hl]
    exact ⟨rfl, [key, name], by simp⟩

theorem Contains.place (h : root.Contains p) :
    p.context = root.context ∧ p.location.document = root.location.document ∧
      root.location.path.segments <+: p.location.path.segments := by
  induction h with
  | refl => exact ⟨rfl, rfl, List.prefix_rfl⟩
  | tail _ hstep ih =>
    obtain ⟨hcontext, hdocument, hprefix⟩ := ih
    obtain ⟨hcontext', hdocument', more, hpath⟩ := hstep.place
    refine ⟨hcontext'.trans hcontext, hdocument'.trans hdocument, ?_⟩
    rw [hpath]
    exact hprefix.trans (List.prefix_append _ _)

/-- A step down to a nested schema is a step of the look-up, which gives the same location
exactly if no map in between starts a scope. -/
theorem Nests.navigate (h : p.Nests q) (hs : p.value.all Json.isStored = true) :
    ∃ more location, q.location.path.segments = p.location.path.segments ++ more ∧
      Lookup.navigate p.context.active.idKeys p.location p.value more =
        some (location, q.value) ∧
      (location = q.location ↔ p.PassesInertMap q) := by
  obtain ⟨members, hm, _, hnested⟩ := h
  have hv := value_of_members? hm
  rw [hv] at hs
  have hmember : ∀ {members : List (String × Json)} {key : String} {value : Json},
      (Json.object members).all Json.isStored = true → (key, value) ∈ members →
        Entries.get? key members = some value := by
    intro members key value hs hmem
    have hkeys : (Entries.keys members).Nodup := by simpa [Json.isStored] using Json.all_self hs
    exact Entries.get?_of_mem hkeys hmem
  obtain ⟨key, value, hmem, hcases⟩ := Digest.nested_cases hnested
  have hkey := hmember hs hmem
  have hkeyValue : p.value.member? key = some value := by
    rw [hv]
    exact hkey
  have hstored : value.all Json.isStored = true := Lookup.all_step? hs hkey
  have hinner : Lookup.rescope p.context.active.idKeys p.location (.object members) = p.inner := by
    rw [inner, hv]
  have hnavigate : ∀ more, Lookup.navigate p.context.active.idKeys p.location p.value
      (key :: more) = Lookup.navigate p.context.active.idKeys (p.inner.child key) value more := by
    intro more
    rw [hv, Lookup.navigate, Lookup.step?, hkey, hinner]
  rcases hcases with hplace | ⟨elements, index, rfl, hi, hl⟩ | ⟨parts, name, rfl, hname, hl⟩
  · obtain ⟨hl, hvalue⟩ := Prod.mk.inj hplace
    have hpath : q.location.path.segments = p.location.path.segments ++ [key] := by
      rw [hl, Location.child_path, inner_path, Pointer.child_segments]
    refine ⟨[key], p.inner.child key, hpath, ?_, ?_⟩
    · rw [hnavigate, hvalue]
      rfl
    · refine iff_of_true hl.symm ?_
      intro _ _ _ hsegments _
      rw [hpath] at hsegments
      simpa using congrArg List.length (List.append_cancel_left hsegments)
  · have hpath : q.location.path.segments = p.location.path.segments ++ [key, toString index] := by
      change q.location = _ at hl
      rw [hl, Location.childIndex, Location.child_path, Location.child_path, inner_path]
      simp
    refine ⟨[key, toString index], (p.inner.child key).childIndex index, hpath, ?_, ?_⟩
    · have hlength : elements.length ≤ Nat.pow 2 64 := by
        simpa [Json.isStored] using Json.all_self hstored
      have hlt : index < elements.length := (List.getElem?_eq_some_iff.mp hi).1
      rw [hnavigate, Lookup.navigate, Lookup.step?, Lookup.index?_toString (by omega),
        Option.bind_some, hi]
      rfl
    · refine iff_of_true hl.symm ?_
      intro _ _ _ hsegments hparts
      rw [hpath] at hsegments
      obtain ⟨rfl, _⟩ := List.cons.inj (List.append_cancel_left hsegments)
      cases hkeyValue.symm.trans hparts
  · change q.location = _ at hl
    have hpath : q.location.path.segments = p.location.path.segments ++ [key, name] := by
      rw [hl, Location.child_path, Location.child_path, inner_path]
      simp
    refine ⟨[key, name], (Lookup.rescope p.context.active.idKeys (p.inner.child key)
      (.object parts)).child name, hpath, ?_, ?_⟩
    · rw [hnavigate, Lookup.navigate, Lookup.step?, hmember hstored hname]
      rfl
    · rw [hl, (Location.child_injective name).eq_iff]
      constructor
      · intro hinert key' name' parts' hsegments hparts
        rw [hpath] at hsegments
        obtain ⟨rfl, _⟩ := List.cons.inj (List.append_cancel_left hsegments)
        cases hkeyValue.symm.trans hparts
        exact hinert
      · intro hinert
        exact hinert _ _ _ hpath hkeyValue

end Position

namespace OpenDocument

variable {document : OpenDocument} {p : Position}

theorem normalized_uri (hu : document.uri.withoutFragment = document.uri) :
    document.uri.normalized = document.uri :=
  Uri.normalized_of_fragment_ne (by rw [← hu]; simp)

/-- The document at which a look-up begins is the one that its positions are in. -/
theorem location_document (hu : document.uri.withoutFragment = document.uri)
    (hp : document.root.Contains p) : p.location.document = document.uri := by
  rw [hp.place.2.1]
  exact normalized_uri hu

/-- The URI of a path in a document is looked up by the path, or as an identifier if a segment of
the path is blank. -/
theorem locate_withPath (hu : document.uri.withoutFragment = document.uri) {base : Uri}
    (hb : base.withoutFragment = document.uri) (path : Pointer) :
    document.locate (Location.withPath base path) =
      if "" ∈ path.segments then
        Lookup.findIdentified document.active.idKeys (Location.withPath base path)
          (.ofDocument document.uri) document.document
      else Lookup.navigate document.active.idKeys (.ofDocument document.uri) document.document
        path.segments := by
  have hbase : (Location.withPath base path).withoutFragment =
      (Location.ofDocument document.uri).document := by
    rw [Location.withoutFragment_withPath, hb, Location.ofDocument, normalized_uri hu]
  have hself := Location.normalized_withPath base path
  cases hroot : path.isRoot with
  | true =>
    have hfragment : (Location.withPath base path).fragment = none := by
      rw [Location.withPath, if_pos hroot]
      rfl
    have hsegments : path.segments = [] := List.isEmpty_iff.mp hroot
    rw [locate, Lookup.locate]
    simp only [hself, hbase, if_true, hfragment, hsegments, List.not_mem_nil, if_false,
      Lookup.navigate]
  | false =>
    have hfragment := Location.fragment_withPath base hroot
    have hpath := Lookup.path?_withPath base hroot
    rw [locate, Lookup.locate]
    simp only [hself, hbase, if_true, hfragment, hpath]
    by_cases hblank : "" ∈ path.segments
    · simp only [if_pos hblank]
    · simp only [if_neg hblank]

/-- The pointer URI of a schema is looked up by its path, or as an identifier if a segment of
the path is blank. -/
theorem locate_of_contains (hu : document.uri.withoutFragment = document.uri)
    (hp : document.root.Contains p) :
    document.locate p.location.pointerUri =
      if "" ∈ p.location.path.segments then
        Lookup.findIdentified document.active.idKeys p.location.pointerUri
          (.ofDocument document.uri) document.document
      else Lookup.navigate document.active.idKeys (.ofDocument document.uri) document.document
        p.location.path.segments := by
  rw [Location.pointerUri, location_document hu hp]
  exact locate_withPath hu hu p.location.path

/-- The schemas on the way to a schema are all found by their paths with their own locations
exactly if no map on the way starts a scope. -/
theorem navigate_iff (hs : document.document.all Json.isStored = true) :
    (∀ q, document.root.Contains q → q.Contains p →
      Lookup.navigate document.active.idKeys (.ofDocument document.uri) document.document
        q.location.path.segments = some (q.location, q.value)) ↔
    ∀ q r, document.root.Contains q → q.Nests r → r.Contains p → q.PassesInertMap r := by
  have hstep : ∀ {q r}, document.root.Contains q → q.Nests r →
      Lookup.navigate document.active.idKeys (.ofDocument document.uri) document.document
        q.location.path.segments = some (q.location, q.value) →
      (Lookup.navigate document.active.idKeys (.ofDocument document.uri) document.document
        r.location.path.segments = some (r.location, r.value) ↔ q.PassesInertMap r) := by
    intro q r hq hr hfound
    have hstored : q.value.all Json.isStored = true :=
      Lookup.all_at? hs (Lookup.navigate_value hfound)
    obtain ⟨more, location, hpath, hnext, hiff⟩ := hr.navigate hstored
    rw [hq.place.1] at hnext
    change Lookup.navigate document.active.idKeys _ _ _ = _ at hnext
    rw [hpath, Lookup.navigate_append, hfound, ← hiff]
    change Lookup.navigate _ _ _ more = _ ↔ _
    rw [hnext]
    simp
  constructor
  · intro hfound q r hq hr hbelow
    have hown := hfound q hq (.head hr hbelow)
    exact (hstep hq hr hown).mp (hfound r (hq.tail hr) hbelow)
  · intro hinert q hq hbelow
    induction hq with
    | refl => rfl
    | @tail q r hq hr ih =>
      have hown := ih (.head hr hbelow)
      exact (hstep hq hr hown).mpr (hinert q r hq hr hbelow)

/-- A schema that is read by keywords is found under the pointer URI of its location: its value
at its place, and it and all schemas above it with their own locations if and only if no map
on the way starts a scope. A path with a blank segment is no path to look-ups, and what is
found then is something that declares an identifier. -/
theorem locate_pointerUri (hu : document.uri.withoutFragment = document.uri)
    (hs : document.document.all Json.isStored = true) (hp : document.root.Contains p) :
    ("" ∉ p.location.path.segments →
      (∃ location, document.locate p.location.pointerUri = some (location, p.value) ∧
        location.document = p.location.document ∧ location.path = p.location.path) ∧
      ((∀ q, document.root.Contains q → q.Contains p →
          document.locate q.location.pointerUri = some (q.location, q.value)) ↔
        ∀ q r, document.root.Contains q → q.Nests r → r.Contains p → q.PassesInertMap r)) ∧
    ("" ∈ p.location.path.segments → ∀ place,
      document.locate p.location.pointerUri = some place →
        Lookup.declaredId? document.active.idKeys place.2 ≠ none) := by
  constructor
  · intro hblank
    constructor
    · obtain ⟨_, l, hlies, hplace, _⟩ := hp.lies
      obtain ⟨hdocument, hpath⟩ := Prod.mk.inj hplace
      refine ⟨l, ?_, hdocument, hpath⟩
      rw [locate_of_contains hu hp, if_neg hblank, ← hpath]
      exact navigate_of_mem hs (Lookup.mem_located.mpr hlies)
    · rw [← navigate_iff hs]
      refine forall_congr' fun q => forall_congr' fun hq => forall_congr' fun hbelow => ?_
      have habove : "" ∉ q.location.path.segments := fun hm => hblank (hbelow.place.2.2.subset hm)
      rw [locate_of_contains hu hq, if_neg habove]
  · intro hblank place hfound hnone
    rw [locate_of_contains hu hp, if_pos hblank, Lookup.findIdentified_eq_find? rfl] at hfound
    have hsearched := List.find?_some hfound
    rw [Lookup.declaresAt_of_none hnone] at hsearched
    cases hsearched

theorem locate_pointerUri_property :
    ∃ location, (withProperty "a").locate (property "a").location.pointerUri =
        some (location, (property "a").value) ∧
      location.document = (property "a").location.document ∧
      location.path = (property "a").location.path :=
  ((locate_pointerUri rfl (by decide +kernel) (contains_property (by decide))).1
    (by decide +kernel)).1

/-- A document with a dependency that is named as the keyword of identifiers is. -/
def withDependencies : OpenDocument :=
  { uri := ⟨"http", some "e.com", .segments ["r.json"], none, none⟩
    document := .object [("dependencies",
      .object [("id", .string "name"), ("x", .object [("type", .string "string")])])]
    draft := .draft7
    active := .all }

/-- The other dependency of the document. -/
def dependency : Position :=
  ⟨withDependencies, (withDependencies.root.location.child "dependencies").child "x",
    .object [("type", .string "string")]⟩

theorem contains_dependency : withDependencies.root.Contains dependency := by
  have hentry : ∃ entry ∈ (Catalog.applicable "dependencies" .all).filter
      (·.expects.accepts .object), entry.reading = .dependencies := by
    decide +kernel
  obtain ⟨entry, hm, hreading⟩ := hentry
  refine .single ⟨_, rfl, rfl, Digest.mem_nested List.mem_cons_self hm ?_⟩
  rw [hreading]
  exact List.mem_map_of_mem (List.mem_filter.mpr ⟨List.mem_cons_of_mem _ List.mem_cons_self, rfl⟩)

/-- The look-up takes the name of the first dependency for the identifier of the map. -/
theorem dependency_misplaced :
    withDependencies.uri.withoutFragment = withDependencies.uri ∧
    withDependencies.document.all Json.isStored = true ∧
    withDependencies.root.Contains dependency ∧
    ∃ location, withDependencies.locate dependency.location.pointerUri =
        some (location, dependency.value) ∧
      dependency.location.scope = ⟨"http", some "e.com", .segments ["r.json"], none, none⟩ ∧
      location.scope = ⟨"http", some "e.com", .segments ["name"], none, none⟩ := by
  refine ⟨rfl, by decide +kernel, contains_dependency, ⟨withDependencies.uri,
    ⟨"http", some "e.com", .segments ["name"], none, none⟩, ⟨["dependencies", "x"]⟩, ⟨["x"]⟩⟩,
    ?_, rfl, rfl⟩
  rw [locate_of_contains rfl contains_dependency, if_neg (by decide +kernel)]
  rfl

end OpenDocument
end SchemaAtlas
