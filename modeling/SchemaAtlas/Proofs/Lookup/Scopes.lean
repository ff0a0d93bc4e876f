import SchemaAtlas.Proofs.Loading.Position
import SchemaAtlas.Proofs.Lookup.Places
import Mathlib.Algebra.Order.BigOperators.Group.List
import Mathlib.Algebra.Order.Group.Nat

/-!
# The scopes in which values are read

The scope of a value depends on the way by which a load has come to it. While a URI is looked
up every object on the way may start a scope, while keywords are read only schemas may. So a
scope is told by two places of a document, the one that was looked up and the one of the value
itself, and a document with `n` values has no more than `n ^ 2` values with scopes to offer.
-/

namespace SchemaAtlas

/-! ## Sizes -/

theorem length_flatMap_le {α β : Type} {f : α → List β} {list : List α} {n : Nat}
    (h : ∀ a ∈ list, (f a).length ≤ n) : (list.flatMap f).length ≤ list.length * n := by
  rw [List.length_flatMap]
  refine (List.sum_le_card_nsmul _ n fun k hk => ?_).trans (by simp)
  obtain ⟨a, ha, rfl⟩ := List.mem_map.mp hk
  exact h a ha

namespace Json

theorem size_le_of_mem_elements {elements : List Json} {value : Json} (h : value ∈ elements) :
    value.size ≤ sizeElements elements := by
  induction elements with
  | nil => cases h
  | cons first rest ih =>
    rw [sizeElements]
    rcases List.mem_cons.mp h with rfl | h
    · omega
    · have hrest := ih h
      omega

theorem size_le_of_mem_members {members : List (String × Json)} {entry : String × Json}
    (h : entry ∈ members) : entry.2.size ≤ sizeMembers members := by
  induction members with
  | nil => cases h
  | cons first rest ih =>
    obtain ⟨key, value⟩ := first
    rw [sizeMembers]
    rcases List.mem_cons.mp h with rfl | h
    · exact Nat.le_add_right _ _
    · have hrest := ih h
      omega

theorem size_lt_of_mem_elements {elements : List Json} {value : Json} (h : value ∈ elements) :
    value.size < (Json.array elements).size := by
  have hle := size_le_of_mem_elements h
  rw [size]
  omega

theorem size_lt_of_mem_members {members : List (String × Json)} {entry : String × Json}
    (h : entry ∈ members) : entry.2.size < (Json.object members).size := by
  have hle := size_le_of_mem_members h
  rw [size]
  omega

end Json

/-! ## Looking values up -/

namespace Lookup

variable {keys : List String}

/-- The scope inside a value. -/
def innerScope (keys : List String) (scope : Uri) (value : Json) : Uri :=
  match declaredId? keys value with
  | some id =>
    match scope.join id with
    | .ok inner => inner.normalized
    | .error _ => scope
  | none => scope

theorem scope_rescope (keys : List String) (location : Location) (value : Json) :
    (rescope keys location value).scope = innerScope keys location.scope value := by
  unfold rescope innerScope
  cases declaredId? keys value with
  | none => rfl
  | some id =>
    simp only [Location.withId, Location.resolve]
    cases location.scope.join id <;> rfl

mutual

/-- The values of a document with the scopes in which they are found. -/
def places (keys : List String) (scope : Uri) : Json → List (Uri × Json)
  | .object members =>
    (scope, .object members) :: placesOfMembers keys (innerScope keys scope (.object members)) members
  | .array elements => (scope, .array elements) :: placesOfElements keys scope elements
  | value => [(scope, value)]

def placesOfMembers (keys : List String) (scope : Uri) : List (String × Json) → List (Uri × Json)
  | [] => []
  | (_, value) :: rest => places keys scope value ++ placesOfMembers keys scope rest

def placesOfElements (keys : List String) (scope : Uri) : List Json → List (Uri × Json)
  | [] => []
  | value :: rest => places keys scope value ++ placesOfElements keys scope rest

end

mutual

theorem length_places (scope : Uri) : (value : Json) →
    (places keys scope value).length = value.size
  | .object members => by
    rw [places, List.length_cons, length_placesOfMembers _ members, Json.size, Nat.add_comm]
  | .array elements => by
    rw [places, List.length_cons, length_placesOfElements _ elements, Json.size, Nat.add_comm]
  | .null => rfl
  | .bool _ => rfl
  | .number _ => rfl
  | .string _ => rfl

theorem length_placesOfMembers (scope : Uri) : (members : List (String × Json)) →
    (placesOfMembers keys scope members).length = Json.sizeMembers members
  | [] => rfl
  | (_, value) :: rest => by
    rw [placesOfMembers, List.length_append, length_places _ value, length_placesOfMembers _ rest,
      Json.sizeMembers]

theorem length_placesOfElements (scope : Uri) : (elements : List Json) →
    (placesOfElements keys scope elements).length = Json.sizeElements elements
  | [] => rfl
  | value :: rest => by
    rw [placesOfElements, List.length_append, length_places _ value, length_placesOfElements _ rest,
      Json.sizeElements]

end

theorem mem_places_self (scope : Uri) (value : Json) : (scope, value) ∈ places keys scope value := by
  cases value <;> exact List.mem_cons_self

theorem placesOfMembers_subset {scope : Uri} {members : List (String × Json)}
    {entry : String × Json} (h : entry ∈ members) :
    places keys scope entry.2 ⊆ placesOfMembers keys scope members := by
  induction members with
  | nil => cases h
  | cons first rest ih =>
    rcases List.mem_cons.mp h with rfl | h
    · exact List.subset_append_left _ _
    · exact List.Subset.trans (ih h) (List.subset_append_right _ _)

theorem placesOfElements_subset {scope : Uri} {elements : List Json} {value : Json}
    (h : value ∈ elements) :
    places keys scope value ⊆ placesOfElements keys scope elements := by
  induction elements with
  | nil => cases h
  | cons first rest ih =>
    rcases List.mem_cons.mp h with rfl | h
    · exact List.subset_append_left _ _
    · exact List.Subset.trans (ih h) (List.subset_append_right _ _)

theorem places_step? {scope : Uri} {value next : Json} {segment : String}
    (h : step? segment value = some next) :
    places keys (innerScope keys scope value) next ⊆ places keys scope value := by
  cases value with
  | object members =>
    exact List.Subset.trans (placesOfMembers_subset (Entries.mem_of_get? h)) (List.subset_cons_self _ _)
  | array elements =>
    obtain ⟨i, _, hi⟩ := Option.bind_eq_some_iff.mp h
    exact List.Subset.trans (placesOfElements_subset (List.mem_of_getElem? hi)) (List.subset_cons_self _ _)
  | null | bool | number | string => cases h

theorem places_navigate {location l : Location} {value v : Json} {segments : List String}
    (h : navigate keys location value segments = some (l, v)) :
    places keys l.scope v ⊆ places keys location.scope value := by
  induction segments generalizing location value with
  | nil =>
    cases h
    exact List.Subset.refl _
  | cons segment rest ih =>
    rw [navigate] at h
    cases hs : step? segment value with
    | none =>
      rw [hs] at h
      cases h
    | some next =>
      rw [hs] at h
      have hrest := ih h
      rw [Location.child_scope, scope_rescope] at hrest
      exact List.Subset.trans hrest (places_step? hs)

mutual

theorem places_findIdentified {target : Uri} {location l : Location} {v : Json} :
    (value : Json) → findIdentified keys target location value = some (l, v) →
      places keys l.scope v ⊆ places keys location.scope value
  | .object members, h => by
    rw [findIdentified] at h
    split at h
    · cases h
      exact List.Subset.refl _
    · have hmembers := places_findInMembers members h
      rw [scope_rescope] at hmembers
      exact List.Subset.trans hmembers (List.subset_cons_self _ _)
  | .array elements, h => by
    rw [findIdentified] at h
    exact List.Subset.trans (places_findInElements elements h) (List.subset_cons_self _ _)
  | .null, h => by cases h
  | .bool _, h => by cases h
  | .number _, h => by cases h
  | .string _, h => by cases h

theorem places_findInMembers {target : Uri} {inner l : Location} {v : Json} :
    (members : List (String × Json)) → findInMembers keys target inner members = some (l, v) →
      places keys l.scope v ⊆ placesOfMembers keys inner.scope members
  | [], h => by cases h
  | (key, value) :: rest, h => by
    rw [findInMembers] at h
    split at h
    · exact List.Subset.trans (places_findInMembers rest h) (List.subset_append_right _ _)
    · split at h
      · rename_i found hf
        cases h
        exact List.Subset.trans (places_findIdentified value hf) (List.subset_append_left _ _)
      · exact List.Subset.trans (places_findInMembers rest h) (List.subset_append_right _ _)

theorem places_findInElements {target : Uri} {location l : Location} {index : Nat} {v : Json} :
    (elements : List Json) → findInElements keys target location index elements = some (l, v) →
      places keys l.scope v ⊆ placesOfElements keys location.scope elements
  | [], h => by cases h
  | value :: rest, h => by
    rw [findInElements] at h
    split at h
    · rename_i found hf
      cases h
      exact List.Subset.trans (places_findIdentified value hf) (List.subset_append_left _ _)
    · exact List.Subset.trans (places_findInElements rest h) (List.subset_append_right _ _)

end

/-- What is looked up in a document is found in it, in the scope that it has there. -/
theorem places_locate {root l : Location} {document v : Json} {uri : Uri}
    (h : locate keys root document uri = some (l, v)) :
    places keys l.scope v ⊆ places keys root.scope document := by
  unfold locate at h
  dsimp only at h
  split at h
  · split at h
    · cases h
      exact List.Subset.refl _
    · exact places_navigate h
    · exact places_findIdentified document h
  · split at h
    · rename_i found hf
      cases h
      exact places_findIdentified document hf
    · split at h
      · split at h
        · rename_i found hf
          exact List.Subset.trans (places_navigate h) (places_findIdentified document hf)
        · cases h
      · cases h

mutual

theorem size_le_of_mem_places {scope : Uri} {place : Uri × Json} :
    (value : Json) → place ∈ places keys scope value → place.2.size ≤ value.size
  | .object members, h => by
    rcases List.mem_cons.mp h with rfl | h
    · exact Nat.le_refl _
    · have hle := size_le_of_mem_placesOfMembers members h
      rw [Json.size]
      omega
  | .array elements, h => by
    rcases List.mem_cons.mp h with rfl | h
    · exact Nat.le_refl _
    · have hle := size_le_of_mem_placesOfElements elements h
      rw [Json.size]
      omega
  | .null, h => by
    rw [List.mem_singleton.mp h]
  | .bool _, h => by
    rw [List.mem_singleton.mp h]
  | .number _, h => by
    rw [List.mem_singleton.mp h]
  | .string _, h => by
    rw [List.mem_singleton.mp h]

theorem size_le_of_mem_placesOfMembers {scope : Uri} {place : Uri × Json} :
    (members : List (String × Json)) → place ∈ placesOfMembers keys scope members →
      place.2.size ≤ Json.sizeMembers members
  | [], h => by cases h
  | (_, value) :: rest, h => by
    rw [Json.sizeMembers]
    rcases List.mem_append.mp h with h | h
    · have hle := size_le_of_mem_places value h
      omega
    · have hle := size_le_of_mem_placesOfMembers rest h
      omega

theorem size_le_of_mem_placesOfElements {scope : Uri} {place : Uri × Json} :
    (elements : List Json) → place ∈ placesOfElements keys scope elements →
      place.2.size ≤ Json.sizeElements elements
  | [], h => by cases h
  | value :: rest, h => by
    rw [Json.sizeElements]
    rcases List.mem_append.mp h with h | h
    · have hle := size_le_of_mem_places value h
      omega
    · have hle := size_le_of_mem_placesOfElements rest h
      omega

end

end Lookup

/-! ## Reading keywords -/

/-- Whether the members of a value under the key are schemas, rather than the value itself. -/
def Catalog.isMap (key : String) : Bool :=
  entries.any fun entry =>
    entry.key = key && (entry.reading = .schemaMap || entry.reading = .dependencies)

theorem Catalog.isMap_eq_false {entry : CatalogEntry} (h : entry ∈ entries)
    (hr : entry.reading = .schema ∨ entry.reading = .schemaList ∨ entry.reading = .items ∨
      entry.reading = .types) : isMap entry.key = false := by
  have hall : ∀ entry ∈ entries, entry.reading = .schema ∨ entry.reading = .schemaList ∨
      entry.reading = .items ∨ entry.reading = .types → isMap entry.key = false := by
    decide +kernel
  exact hall entry h hr

theorem Catalog.isMap_eq_true {entry : CatalogEntry} (h : entry ∈ entries)
    (hr : entry.reading = .schemaMap ∨ entry.reading = .dependencies) :
    isMap entry.key = true := by
  rw [isMap, List.any_eq_true]
  exact ⟨entry, h, by simpa using hr⟩

namespace Digest

variable {keys : List String}

mutual

/-- The objects to which the reading of a value leads, with their scopes. The value is read as
a schema, or as a `map` of schemas. -/
def within (keys : List String) (map : Bool) (scope : Uri) : Json → List (Uri × Json)
  | .object members =>
    if map then withinParts keys scope members
    else (scope, .object members) ::
      withinMembers keys (Lookup.innerScope keys scope (.object members)) members
  | .array elements => withinElements keys scope elements
  | _ => []

def withinMembers (keys : List String) (scope : Uri) : List (String × Json) → List (Uri × Json)
  | [] => []
  | (key, value) :: rest =>
    within keys (Catalog.isMap key) scope value ++ withinMembers keys scope rest

def withinParts (keys : List String) (scope : Uri) : List (String × Json) → List (Uri × Json)
  | [] => []
  | (_, value) :: rest => within keys false scope value ++ withinParts keys scope rest

def withinElements (keys : List String) (scope : Uri) : List Json → List (Uri × Json)
  | [] => []
  | value :: rest => within keys false scope value ++ withinElements keys scope rest

end

mutual

theorem length_within (map : Bool) (scope : Uri) : (value : Json) →
    (within keys map scope value).length ≤ value.size
  | .object members => by
    rw [within, Json.size]
    split
    · have hle := length_withinParts scope members
      omega
    · have hle := length_withinMembers
        (Lookup.innerScope keys scope (.object members)) members
      rw [List.length_cons]
      omega
  | .array elements => by
    have hle := length_withinElements scope elements
    rw [within, Json.size]
    omega
  | .null => Nat.zero_le _
  | .bool _ => Nat.zero_le _
  | .number _ => Nat.zero_le _
  | .string _ => Nat.zero_le _

theorem length_withinMembers (scope : Uri) : (members : List (String × Json)) →
    (withinMembers keys scope members).length ≤ Json.sizeMembers members
  | [] => Nat.le_refl _
  | (key, value) :: rest => by
    rw [withinMembers, Json.sizeMembers, List.length_append]
    exact Nat.add_le_add (length_within _ scope value) (length_withinMembers scope rest)

theorem length_withinParts (scope : Uri) : (members : List (String × Json)) →
    (withinParts keys scope members).length ≤ Json.sizeMembers members
  | [] => Nat.le_refl _
  | (_, value) :: rest => by
    rw [withinParts, Json.sizeMembers, List.length_append]
    exact Nat.add_le_add (length_within false scope value) (length_withinParts scope rest)

theorem length_withinElements (scope : Uri) : (elements : List Json) →
    (withinElements keys scope elements).length ≤ Json.sizeElements elements
  | [] => Nat.le_refl _
  | value :: rest => by
    rw [withinElements, Json.sizeElements, List.length_append]
    exact Nat.add_le_add (length_within false scope value) (length_withinElements scope rest)

end

theorem withinMembers_subset {scope : Uri} {members : List (String × Json)} {key : String}
    {value : Json} (h : (key, value) ∈ members) :
    within keys (Catalog.isMap key) scope value ⊆ withinMembers keys scope members := by
  induction members with
  | nil => cases h
  | cons first rest ih =>
    rcases List.mem_cons.mp h with rfl | h
    · exact List.subset_append_left _ _
    · exact List.Subset.trans (ih h) (List.subset_append_right _ _)

theorem withinParts_subset {scope : Uri} {members : List (String × Json)} {name : String}
    {value : Json} (h : (name, value) ∈ members) :
    within keys false scope value ⊆ withinParts keys scope members := by
  induction members with
  | nil => cases h
  | cons first rest ih =>
    rcases List.mem_cons.mp h with rfl | h
    · exact List.subset_append_left _ _
    · exact List.Subset.trans (ih h) (List.subset_append_right _ _)

theorem withinElements_subset {scope : Uri} {elements : List Json} {value : Json}
    (h : value ∈ elements) :
    within keys false scope value ⊆ withinElements keys scope elements := by
  induction elements with
  | nil => cases h
  | cons first rest ih =>
    rcases List.mem_cons.mp h with rfl | h
    · exact List.subset_append_left _ _
    · exact List.Subset.trans (ih h) (List.subset_append_right _ _)

/-- A place at which a keyword asks for a schema is the value of the keyword or a part of it,
and its reading leads to no more than that of the keyword. -/
theorem nestedIn_within {active : DraftSet} {entry : CatalogEntry} {location : Location}
    {value : Json} {place : Location × Json} (he : entry ∈ Catalog.entries)
    (h : place ∈ nestedIn active entry.reading location value) :
    place.2.size ≤ value.size ∧ within keys false place.1.scope place.2 ⊆
      within keys (Catalog.isMap entry.key) location.scope value := by
  have hitself : entry.reading = .schema ∨ entry.reading = .schemaList ∨
      entry.reading = .items ∨ entry.reading = .types → place = (location, value) →
      place.2.size ≤ value.size ∧ within keys false place.1.scope place.2 ⊆
        within keys (Catalog.isMap entry.key) location.scope value := by
    rintro hr rfl
    rw [Catalog.isMap_eq_false he hr]
    exact ⟨Nat.le_refl _, List.Subset.refl _⟩
  have helement : ∀ {elements}, value = .array elements → place ∈ elementPlaces location 0 elements →
      place.2.size ≤ value.size ∧ within keys false place.1.scope place.2 ⊆
        within keys (Catalog.isMap entry.key) location.scope value := by
    rintro elements rfl hp
    obtain ⟨i, hi, hl⟩ := mem_elementPlaces hp
    have hm := List.mem_of_getElem? hi
    rw [hl]
    exact ⟨Nat.le_of_lt (Json.size_lt_of_mem_elements hm), withinElements_subset hm⟩
  have hmember : entry.reading = .schemaMap ∨ entry.reading = .dependencies →
      ∀ {members kept}, value = .object members → kept ⊆ members →
      place ∈ memberPlaces location kept →
      place.2.size ≤ value.size ∧ within keys false place.1.scope place.2 ⊆
        within keys (Catalog.isMap entry.key) location.scope value := by
    rintro hr members kept rfl hkept hp
    obtain ⟨name, hm, hl⟩ := mem_memberPlaces hp
    rw [hl, Catalog.isMap_eq_true he hr]
    exact ⟨Nat.le_of_lt (Json.size_lt_of_mem_members (hkept hm)), withinParts_subset (hkept hm)⟩
  unfold nestedIn at h
  split at h
  · rename_i hr
    exact hitself (Or.inl hr) (List.mem_singleton.mp h)
  · exact helement rfl h
  · rename_i hr
    exact hitself (Or.inr (Or.inl hr)) (List.mem_singleton.mp h)
  · exact helement rfl h
  · rename_i hr _
    exact hitself (Or.inr (Or.inr (Or.inl hr))) (List.mem_singleton.mp h)
  · rename_i hr
    exact hmember (Or.inl hr) rfl List.filter_sublist.subset h
  · rename_i hr
    exact hmember (Or.inr hr) rfl List.filter_sublist.subset h
  · split at h
    · exact helement rfl (List.mem_filter.mp h).1
    · cases h
  · rename_i hr _
    split at h
    · exact hitself (Or.inr (Or.inr (Or.inr hr))) (List.mem_singleton.mp h)
    · cases h
  · cases h

/-- The places at which the reading of an object asks for schemas have smaller values, and
their reading leads to no more than that of the object. -/
theorem nested_within {active : DraftSet} {inner : Location} {members : List (String × Json)}
    {place : Location × Json} (h : place ∈ nested active inner members) :
    place.2.size < (Json.object members).size ∧
      within keys false place.1.scope place.2 ⊆ withinMembers keys inner.scope members := by
  obtain ⟨⟨key, value⟩, hm, h⟩ := List.mem_flatMap.mp h
  obtain ⟨entry, he, hplace⟩ := List.mem_flatMap.mp h
  obtain ⟨hentry, rfl⟩ := mem_applicable (List.mem_filter.mp he).1
  obtain ⟨hsize, hsub⟩ := nestedIn_within hentry hplace
  exact ⟨Nat.lt_of_le_of_lt hsize (Json.size_lt_of_mem_members hm),
    List.Subset.trans hsub (withinMembers_subset hm)⟩

end Digest

/-! ## References -/

/-- The URI that a value refers to in a scope. -/
def Uri.referredTo? (scope : Uri) (value : Json) : Option Uri :=
  ((value.member? "$ref").bind Json.string?).bind fun written =>
    ((scope.join written).map Uri.normalized).toOption

namespace OpenDocument

/-- The objects that may be read in a document, with the scopes in which they may be. -/
def readings (document : OpenDocument) : List (Uri × Json) :=
  (Lookup.places document.active.idKeys document.uri.normalized document.document).flatMap
    fun place => Digest.within document.active.idKeys false place.1 place.2

/-- The URIs to which the objects of a document may refer. -/
def references (document : OpenDocument) : List Uri :=
  document.readings.filterMap fun reading => reading.1.referredTo? reading.2

theorem length_references_le (document : OpenDocument) :
    document.references.length ≤ document.document.size * document.document.size := by
  have hwithin : ∀ place ∈
      Lookup.places document.active.idKeys document.uri.normalized document.document,
      (Digest.within document.active.idKeys false place.1 place.2).length ≤
        document.document.size := fun place hp =>
    Nat.le_trans (Digest.length_within false place.1 place.2) (Lookup.size_le_of_mem_places _ hp)
  calc document.references.length
      ≤ document.readings.length := List.length_filterMap_le _ _
    _ ≤ (Lookup.places document.active.idKeys document.uri.normalized document.document).length *
        document.document.size := length_flatMap_le hwithin
    _ = document.document.size * document.document.size := by rw [Lookup.length_places]

/-- What a URI names in a document may be read in it. -/
theorem within_locate {document : OpenDocument} {uri : Uri} {location : Location} {value : Json}
    (h : document.locate uri = some (location, value)) :
    Digest.within document.active.idKeys false location.scope value ⊆ document.readings ∧
      value.size ≤ document.document.size := by
  have hmem := Lookup.places_locate h (Lookup.mem_places_self _ _)
  exact ⟨fun reading hr => List.mem_flatMap.mpr ⟨_, hmem, hr⟩,
    Lookup.size_le_of_mem_places _ hmem⟩

end OpenDocument

/-- The URI of a reference is among those of its document. -/
theorem Position.refers?_mem {p : Position} {uri : Uri} (h : p.refers? = some uri)
    (hp : Digest.within p.context.active.idKeys false p.location.scope p.value ⊆
      p.context.readings) : uri ∈ p.context.references := by
  refine List.mem_filterMap.mpr ⟨(p.location.scope, p.value), hp ?_, ?_⟩
  · cases hv : p.value with
    | object members => exact List.mem_cons_self
    | null | bool | number | string | array =>
      rw [Position.refers?, Position.written?, hv] at h
      cases h
  · exact h

end SchemaAtlas
