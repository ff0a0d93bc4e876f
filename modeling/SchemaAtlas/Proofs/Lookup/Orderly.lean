import SchemaAtlas.Proofs.Lookup.Navigated
import Mathlib.Data.List.Induction

/-!
# Documents whose identifiers are found

In an orderly document every identifier that a value declares is a URI of the document itself,
which look-ups find at this value, and no map of schemas declares one. There a URI names one
place of the document or none, and the location of a place is what following its path gives.
-/

namespace SchemaAtlas

theorem Lookup.not_blank_of_path? {uri : Uri} {p : Pointer} (h : path? uri = some p) :
    "" ∉ p.segments := by
  unfold path? at h
  split at h
  · split at h
    · cases hr : Pointer.readFragment _ with
      | error fault =>
        rw [hr] at h
        cases h
      | ok read =>
        rw [hr] at h
        cases h
        unfold Pointer.readFragment at hr
        dsimp only at hr
        split at hr
        · exact Pointer.not_blank_of_read hr
        · cases hr
    · cases h
  · cases h

namespace Location

/-- A location in the document at `d`, whose scope begins at the place that its fragment names. -/
structure Local (d : Uri) (l : Location) : Prop where
  document : l.document = d
  base : l.scope.withoutFragment = d
  normalized : l.scope.fragment ≠ some ""
  whole : l.scope.fragment = none → l.scopePath = l.path
  part : ∀ {fragment base}, l.scope.fragment = some fragment → fragment.front = '/' →
    Pointer.readFragment fragment = .ok base → base ++ l.scopePath = l.path

variable {d : Uri} {l : Location}

theorem normalized_of_resolve {reference : String} {uri : Uri} (h : l.resolve reference = .ok uri) :
    uri.normalized = uri := by
  unfold resolve at h
  cases hj : l.scope.join reference with
  | error fault =>
    rw [hj] at h
    cases h
  | ok joined =>
    rw [hj] at h
    cases h
    exact Uri.normalized_idem joined

theorem Local.child (h : l.Local d) (segment : String) : (l.child segment).Local d where
  document := h.document
  base := h.base
  normalized := h.normalized
  whole := fun hnone => congrArg (Pointer.child · segment) (h.whole hnone)
  part := by
    intro fragment base hf hfront hread
    have hpath := congrArg (Pointer.child · segment) (h.part hf hfront hread)
    rw [child_path, ← hpath]
    change (⟨base.segments ++ (l.scopePath.segments ++ [segment])⟩ : Pointer) =
      ⟨(base.segments ++ l.scopePath.segments) ++ [segment]⟩
    rw [List.append_assoc]

/-- Such a location is known by its path, unless a plain name begins at it. -/
theorem Local.uri_cases (h : l.Local d) (hd : d.withoutFragment = d) :
    (∃ base, base.withoutFragment = d ∧ l.uri = withPath base l.path) ∨
      l.scopePath.isRoot = true ∧ l.uri = l.scope ∧ l.scope.fragment ≠ none := by
  cases hf : l.scope.fragment with
  | none =>
    refine Or.inl ⟨l.scope, h.base, ?_⟩
    simp only [uri, hf, h.whole hf]
  | some fragment =>
    have hne : fragment.isEmpty = false := by
      have hnormalized := h.normalized
      rw [hf] at hnormalized
      simpa using hnormalized
    simp only [uri, hf, hne, Bool.false_eq_true, if_false]
    split
    · rename_i hfront
      split
      · rename_i base hread
        exact Or.inl ⟨l.scope, h.base, by rw [h.part hf hfront hread]⟩
      · exact Or.inl ⟨d, hd, by rw [pointerUri, h.document]⟩
    · split
      · rename_i hroot
        exact Or.inr ⟨hroot, rfl, by simp⟩
      · exact Or.inl ⟨d, hd, by rw [pointerUri, h.document]⟩

end Location

namespace OpenDocument

/-- What a path leads to from the root of a document. -/
def follow (document : OpenDocument) (path : List String) : Option (Location × Json) :=
  Lookup.navigate document.active.idKeys (.ofDocument document.uri) document.document path

/-- A document in which look-ups find every identifier at the value that declares it. -/
structure Orderly (document : OpenDocument) : Prop where
  stored : document.document.all Json.isStored = true
  quiet : ∀ {path location members key value},
    document.follow path = some (location, .object members) → (key, value) ∈ members →
    Catalog.isMap key = true → Lookup.declaredId? document.active.idKeys value = none
  declared : ∀ {path location value id}, document.follow path = some (location, value) →
    Lookup.declaredId? document.active.idKeys value = some id →
    "" ∉ path ∧ ∃ uri, location.resolve id = .ok uri ∧ uri.withoutFragment = document.uri ∧
      document.locate uri = some (location, value)

variable {document : OpenDocument} {path : List String} {location : Location} {value : Json}
variable {uri : Uri}

theorem follow_path (h : document.follow path = some (location, value)) :
    location.path.segments = path :=
  (Lookup.path_of_navigate h).trans (List.nil_append path)

theorem at?_of_follow (h : document.follow path = some (location, value)) :
    document.document.at? path = some value :=
  Lookup.navigate_value h

theorem follow_append (path more : List String) :
    document.follow (path ++ more) = (document.follow path).bind fun place =>
      Lookup.navigate document.active.idKeys place.1 place.2 more :=
  Lookup.navigate_append ..

/-- What a look-up of an identifier finds stands at its own path. -/
theorem follow_of_findIdentified (hs : document.document.all Json.isStored = true) {target : Uri}
    (h : Lookup.findIdentified document.active.idKeys target (.ofDocument document.uri)
      document.document = some (location, value)) :
    document.follow location.path.segments = some (location, value) := by
  rw [Lookup.findIdentified_eq_find? rfl] at h
  exact navigate_of_mem hs (List.mem_of_find?_eq_some h)

section

variable (hroot : document.uri.withoutFragment = document.uri)

include hroot

/-- A URI of the document names its root, what its path leads to, or what its fragment identifies. -/
theorem locate_cases (hn : uri.normalized = uri) (hu : uri.withoutFragment = document.uri) :
    uri.fragment = none ∧ document.locate uri = document.follow [] ∨
      (∃ path, Lookup.path? uri = some path ∧ document.locate uri = document.follow path.segments) ∨
      uri.fragment ≠ none ∧ Lookup.path? uri = none ∧
        document.locate uri = Lookup.findIdentified document.active.idKeys uri
          (.ofDocument document.uri) document.document := by
  have hdocument : (Location.ofDocument document.uri).document = document.uri :=
    normalized_uri hroot
  unfold locate Lookup.locate
  simp only [hn, hu, hdocument, if_true]
  cases hf : uri.fragment with
  | none => exact Or.inl ⟨rfl, rfl⟩
  | some fragment =>
    cases hp : Lookup.path? uri with
    | none => exact Or.inr (Or.inr ⟨by simp, rfl, rfl⟩)
    | some path => exact Or.inr (Or.inl ⟨path, rfl, rfl⟩)

/-- What a URI of the document names stands at its own path. -/
theorem follow_of_locate (hs : document.document.all Json.isStored = true)
    (hn : uri.normalized = uri) (hu : uri.withoutFragment = document.uri)
    (h : document.locate uri = some (location, value)) :
    document.follow location.path.segments = some (location, value) := by
  rcases locate_cases hroot hn hu with ⟨-, heq⟩ | ⟨path, -, heq⟩ | ⟨-, -, heq⟩
  · have hfollow := heq.symm.trans h
    rwa [follow_path hfollow]
  · have hfollow := heq.symm.trans h
    rwa [follow_path hfollow]
  · exact follow_of_findIdentified hs (heq.symm.trans h)

/-- The location inside a value is local if its own is and its identifier is found. -/
theorem Orderly.rescope (hd : document.Orderly) (h : document.follow path = some (location, value))
    (hlocal : location.Local document.uri) :
    (Lookup.rescope document.active.idKeys location value).Local document.uri := by
  unfold Lookup.rescope
  cases hid : Lookup.declaredId? document.active.idKeys value with
  | none => exact hlocal
  | some id =>
    obtain ⟨-, uri, hresolve, hbase, hlocate⟩ := hd.declared h hid
    have hn := Location.normalized_of_resolve hresolve
    have hinner : location.withId id = .ok { location with scope := uri, scopePath := .root } := by
      rw [Location.withId, hresolve]
      rfl
    simp only [hinner]
    have hfollow : ∀ {segments : List String}, document.locate uri = document.follow segments →
        segments = location.path.segments := by
      intro segments heq
      exact (follow_path (heq.symm.trans hlocate)).symm
    refine ⟨hlocal.document, hbase, ?_, fun hf => ?_, fun {fragment base} hf hfront hread => ?_⟩
    · rw [← hn]
      exact Uri.normalized_fragment_ne uri
    · have huri : uri.fragment = none := hf
      rcases locate_cases hroot hn hbase with ⟨-, heq⟩ | ⟨path, hpath, -⟩ | ⟨hne, -⟩
      · exact congrArg Pointer.mk (hfollow heq)
      · rw [Lookup.path?, huri] at hpath
        cases hpath
      · exact absurd huri hne
    · have huri : uri.fragment = some fragment := hf
      have hpath : Lookup.path? uri = some base := by
        rw [Lookup.path?]
        simp only [huri, hfront, if_true, hread]
        rfl
      rcases locate_cases hroot hn hbase with ⟨hnone, -⟩ | ⟨path, hpath', heq⟩ | ⟨-, hnone, -⟩
      · cases huri.symm.trans hnone
      · cases hpath.symm.trans hpath'
        exact congrArg Pointer.mk ((List.append_nil _).trans (hfollow heq))
      · cases hpath.symm.trans hnone

/-- The place that a path leads to is local, and only the root begins its scope. -/
theorem Orderly.follow (hd : document.Orderly) (h : document.follow path = some (location, value)) :
    location.Local document.uri ∧ (location.scopePath.isRoot = true → location.scope.fragment = none) := by
  induction path using List.reverseRecOn generalizing location value with
  | nil =>
    cases h
    have hfragment : document.uri.fragment = none := by
      rw [← hroot]
      rfl
    have hscope : (Location.ofDocument document.uri).scope = document.uri := normalized_uri hroot
    refine ⟨⟨normalized_uri hroot, ?_, ?_, fun _ => rfl, fun hf => ?_⟩, fun _ => ?_⟩ <;>
      rw [hscope] at *
    · exact hroot
    · simp [hfragment]
    · cases hfragment.symm.trans hf
    · exact hfragment
  | append_singleton path segment ih =>
    rw [follow_append] at h
    obtain ⟨⟨outer, around⟩, hfollow, hstep⟩ := Option.bind_eq_some_iff.mp h
    rw [Lookup.navigate] at hstep
    split at hstep
    · cases hstep
      have hlocal := hd.rescope hroot hfollow (ih hfollow).1
      refine ⟨hlocal.child segment, fun hempty => ?_⟩
      simp [Location.child, Pointer.isRoot] at hempty
    · cases hstep

end

/-- An identifier that a look-up finds is a URI of the document, at a place that has a name. -/
theorem Orderly.identified (hd : document.Orderly) {target : Uri}
    (h : Lookup.findIdentified document.active.idKeys target (.ofDocument document.uri)
      document.document = some (location, value)) :
    "" ∉ location.path.segments ∧ target.withoutFragment = document.uri := by
  have hfollow := follow_of_findIdentified hd.stored h
  rw [Lookup.findIdentified_eq_find? rfl] at h
  have hdeclares := List.find?_some h
  simp only [Lookup.declaresAt, Bool.and_eq_true] at hdeclares
  obtain ⟨⟨hsome, hscope⟩, -⟩ := hdeclares
  obtain ⟨id, hid⟩ := Option.isSome_iff_exists.mp hsome
  obtain ⟨hnamed, uri, hresolve, hbase, -⟩ := hd.declared hfollow hid
  refine ⟨hnamed, ?_⟩
  have hscope : uri = target := by
    simpa [Lookup.rescope, hid, Location.withId, hresolve, Except.map] using hscope
  exact hscope ▸ hbase

/-- A URI that an orderly document has is one of its own, and names a place that has a name. -/
theorem Orderly.locate (hd : document.Orderly)
    (hroot : document.uri.withoutFragment = document.uri)
    (h : document.locate uri = some (location, value)) :
    uri.withoutFragment = document.uri ∧ document.follow location.path.segments = some (location, value) ∧
      "" ∉ location.path.segments := by
  have hlocate : document.locate uri.normalized = some (location, value) := by
    unfold OpenDocument.locate Lookup.locate at h ⊢
    rwa [Uri.normalized_idem]
  by_cases hbase : uri.normalized.withoutFragment = document.uri
  · have hn := Uri.normalized_idem uri
    refine ⟨by rwa [Uri.withoutFragment_normalized] at hbase,
      follow_of_locate hroot hd.stored hn hbase hlocate, ?_⟩
    rcases locate_cases hroot hn hbase with ⟨-, heq⟩ | ⟨path, hpath, heq⟩ | ⟨-, -, heq⟩
    · rw [follow_path (heq.symm.trans hlocate)]
      exact List.not_mem_nil
    · rw [follow_path (heq.symm.trans hlocate)]
      exact Lookup.not_blank_of_path? hpath
    · exact (hd.identified (heq.symm.trans hlocate)).1
  · -- in the document of another URI only an identifier could be found
    have hdocument : (Location.ofDocument document.uri).document = document.uri :=
      normalized_uri hroot
    have hnone : ∀ target : Uri, target.withoutFragment = uri.normalized.withoutFragment →
        Lookup.findIdentified document.active.idKeys target (.ofDocument document.uri)
          document.document = none := by
      intro target htarget
      rw [Option.eq_none_iff_forall_ne_some]
      rintro ⟨l, v⟩ hfound
      exact hbase (htarget.symm.trans (hd.identified hfound).2)
    unfold OpenDocument.locate Lookup.locate at hlocate
    simp only [Uri.normalized_idem, hdocument, if_neg hbase, hnone _ rfl,
      hnone _ (Uri.withoutFragment_idem _)] at hlocate
    split at hlocate <;> cases hlocate

/-! ## Telling whether a document is orderly -/

/-- Whether no map of schemas in an object declares an identifier. -/
def keepsMapsQuiet (document : OpenDocument) : Json → Bool
  | .object members => members.all fun (key, value) =>
    !Catalog.isMap key || (Lookup.declaredId? document.active.idKeys value).isNone
  | _ => true

/-- Whether nothing in an array declares an identifier. An element has more than one path. -/
def keepsArraysAnonymous (document : OpenDocument) : Json → Bool
  | .array elements => Json.allElements (!·.declares document.active.idKeys) elements
  | _ => true

/-- Whether the identifier that a value declares is looked up as this value. -/
def findsDeclared (document : OpenDocument) (place : Location × Json) : Bool :=
  match Lookup.declaredId? document.active.idKeys place.2 with
  | none => true
  | some id =>
    !place.1.path.segments.contains "" &&
      match place.1.resolve id with
      | .ok uri => uri.withoutFragment = document.uri &&
          (document.locate uri).map Prod.fst = some place.1
      | .error _ => false

/-- Whether a document is orderly, by its values in their order. -/
def isOrderly (document : OpenDocument) : Bool :=
  document.document.all Json.isStored && document.document.all document.keepsArraysAnonymous &&
    (Lookup.located document.active.idKeys (.ofDocument document.uri) document.document).all
      fun place => document.keepsMapsQuiet place.2 && document.findsDeclared place

theorem mem_located_or_anonymous (h : document.document.all document.keepsArraysAnonymous = true)
    (hfollow : document.follow path = some (location, value)) :
    (location, value) ∈ Lookup.located document.active.idKeys (.ofDocument document.uri)
      document.document ∨ Lookup.Anonymous document.active.idKeys value := by
  rw [Lookup.mem_located]
  unfold follow at hfollow
  generalize Location.ofDocument document.uri = start at hfollow ⊢
  generalize document.document = around at h hfollow ⊢
  induction path generalizing start around with
  | nil =>
    cases hfollow
    exact Or.inl .here
  | cons segment path ih =>
    rw [Lookup.navigate] at hfollow
    cases hs : Lookup.step? segment around with
    | none =>
      rw [hs] at hfollow
      cases hfollow
    | some next =>
      rw [hs] at hfollow
      cases around with
      | object members =>
        exact (ih _ _ (Lookup.all_step? h hs) hfollow).imp_left (.member (Entries.mem_of_get? hs))
      | array elements =>
        obtain ⟨i, -, hi⟩ := Option.bind_eq_some_iff.mp hs
        have hnext := Json.all_of_mem_elements (Json.all_self h) (List.mem_of_getElem? hi)
        exact Or.inr (Lookup.all_at? hnext (Lookup.navigate_value hfollow))
      | null | bool | number | string => cases hs

theorem orderly_of_isOrderly (hroot : document.uri.withoutFragment = document.uri)
    (h : document.isOrderly = true) : document.Orderly := by
  obtain ⟨hbase, hall⟩ := Bool.and_eq_true_iff.mp h
  obtain ⟨hs, harrays⟩ := Bool.and_eq_true_iff.mp hbase
  have hplace : ∀ {path location value}, document.follow path = some (location, value) →
      document.keepsMapsQuiet value = true ∧ document.findsDeclared (location, value) = true ∨
        Lookup.Anonymous document.active.idKeys value := fun hf =>
    (mem_located_or_anonymous harrays hf).imp_left fun hm =>
      Bool.and_eq_true_iff.mp (List.all_eq_true.mp hall _ hm)
  refine ⟨hs, fun {path location members key value} hf hm hmap => ?_,
    fun {path location value id} hf hid => ?_⟩
  · rcases hplace hf with ⟨hquiet, -⟩ | hnone
    · simpa [hmap] using List.all_eq_true.mp hquiet _ hm
    · exact Lookup.declaredId?_of_anonymous
        (Json.all_of_mem_members (Bool.and_eq_true_iff.mp hnone).2 hm)
  · rcases hplace hf with ⟨-, hfinds⟩ | hnone
    · simp only [findsDeclared, hid, Bool.and_eq_true] at hfinds
      obtain ⟨hnamed, hfinds⟩ := hfinds
      rw [follow_path hf] at hnamed
      cases hresolve : location.resolve id with
      | error fault =>
        rw [hresolve] at hfinds
        cases hfinds
      | ok uri =>
        simp only [hresolve, Bool.and_eq_true, decide_eq_true_eq] at hfinds
        obtain ⟨hu, hlocate⟩ := hfinds
        obtain ⟨⟨l, v⟩, hfound, rfl⟩ := Option.map_eq_some_iff.mp hlocate
        have hown := follow_of_locate hroot hs (Location.normalized_of_resolve hresolve) hu hfound
        rw [follow_path hf, hf] at hown
        cases hown
        exact ⟨by simpa using hnamed, uri, rfl, hu, hfound⟩
    · cases (Lookup.declaredId?_of_anonymous hnone).symm.trans hid

end OpenDocument
end SchemaAtlas
