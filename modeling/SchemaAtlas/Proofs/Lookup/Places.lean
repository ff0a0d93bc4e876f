import SchemaAtlas.Proofs.Loading.Nested
import SchemaAtlas.Proofs.Pointer.Fragment

/-!
# Places of a document without identifiers

Where no object declares an identifier, a location is a path in its document and nothing
else. `locate_anonymous` and `nested_anonymous` say that both ways to come to a location,
by a URI and by the reading of keywords, then give the value that stands at its path.
-/

namespace SchemaAtlas

namespace Json

mutual

/-- Whether every value of a document passes a test. -/
def all (p : Json → Bool) : Json → Bool
  | .array elements => p (.array elements) && allElements p elements
  | .object members => p (.object members) && allMembers p members
  | other => p other

def allElements (p : Json → Bool) : List Json → Bool
  | [] => true
  | value :: rest => all p value && allElements p rest

def allMembers (p : Json → Bool) : List (String × Json) → Bool
  | [] => true
  | (_, value) :: rest => all p value && allMembers p rest

end

variable {p : Json → Bool}

theorem all_self {value : Json} (h : value.all p = true) : p value = true := by
  cases value with
  | array => exact (Bool.and_eq_true_iff.mp h).1
  | object => exact (Bool.and_eq_true_iff.mp h).1
  | null | bool | number | string => exact h

theorem all_of_mem_elements {elements : List Json} (h : allElements p elements = true)
    {value : Json} (hm : value ∈ elements) : value.all p = true := by
  induction elements with
  | nil => cases hm
  | cons first rest ih =>
    obtain ⟨hfirst, hrest⟩ := Bool.and_eq_true_iff.mp h
    rcases List.mem_cons.mp hm with rfl | hm
    · exact hfirst
    · exact ih hrest hm

theorem all_of_mem_members {members : List (String × Json)} (h : allMembers p members = true)
    {entry : String × Json} (hm : entry ∈ members) : entry.2.all p = true := by
  induction members with
  | nil => cases hm
  | cons first rest ih =>
    obtain ⟨key, value⟩ := first
    obtain ⟨hfirst, hrest⟩ := Bool.and_eq_true_iff.mp h
    rcases List.mem_cons.mp hm with rfl | hm
    · exact hfirst
    · exact ih hrest hm

/-- What a document in memory keeps to: a key occurs once in an object, and an index has at
most 64 bits. -/
def isStored : Json → Bool
  | .object members => decide (Entries.keys members).Nodup
  | .array elements => decide (elements.length ≤ Nat.pow 2 64)
  | _ => true

/-- Whether an object has a string under one of some keys. -/
def declares (keys : List String) (value : Json) : Bool :=
  keys.any fun key => ((value.member? key).bind Json.string?).isSome

/-- The value at a path. -/
def at? (path : List String) (document : Json) : Option Json :=
  path.foldlM (fun value segment => Lookup.step? segment value) document

@[simp] theorem at?_nil (document : Json) : at? [] document = some document := rfl

theorem at?_cons (segment : String) (path : List String) (document : Json) :
    at? (segment :: path) document = (Lookup.step? segment document).bind (at? path) := rfl

theorem at?_append (path more : List String) (document : Json) :
    at? (path ++ more) document = (at? path document).bind (at? more) := by
  unfold at?
  rw [List.foldlM_append]
  rfl

end Json

namespace Lookup

theorem index?_toString {n : Nat} (h : n < Nat.pow 2 64) : index? (toString n) = some n := by
  have hdigits : (toString n).toList = Nat.toDigits 10 n := Nat.toList_repr
  have hall : ∀ c ∈ Nat.toDigits 10 n, c.isDigit = true := fun c hc =>
    Nat.isDigit_of_mem_toDigits (by decide) (by decide) hc
  have hvalue : (Nat.toDigits 10 n).foldl (fun n c => 10 * n + (c.toNat - 48)) 0 = n :=
    (Nat.ofDigitChars_eq_foldl).symm.trans Nat.ofDigitChars_ten_toDigits
  have hnonempty : (Nat.toDigits 10 n).isEmpty = false := by
    simp [Nat.toDigits_ne_nil]
  have hdecimal : (Nat.toDigits 10 n).all Char.isDigit = true := List.all_eq_true.mpr hall
  unfold index?
  rw [hdigits]
  split
  · rename_i rest heq
    exact absurd (hall '+' (heq ▸ List.mem_cons_self)) (by decide)
  · simp only [hnonempty, hdecimal, hvalue, h, Bool.not_true, Bool.or_self, Bool.false_eq_true,
      if_false, if_true]

variable {p : Json → Bool} {keys : List String}

theorem all_step? {value next : Json} {segment : String} (h : value.all p = true)
    (hs : step? segment value = some next) : next.all p = true := by
  cases value with
  | object members =>
    exact Json.all_of_mem_members (Bool.and_eq_true_iff.mp h).2 (Entries.mem_of_get? hs)
  | array elements =>
    obtain ⟨i, _, hi⟩ := Option.bind_eq_some_iff.mp hs
    exact Json.all_of_mem_elements (Bool.and_eq_true_iff.mp h).2 (List.mem_of_getElem? hi)
  | null | bool | number | string => cases hs

theorem all_at? {document value : Json} {path : List String} (h : document.all p = true)
    (hat : document.at? path = some value) : value.all p = true := by
  induction path generalizing document with
  | nil =>
    cases hat
    exact h
  | cons segment path ih =>
    rw [Json.at?_cons] at hat
    obtain ⟨next, hs, hat⟩ := Option.bind_eq_some_iff.mp hat
    exact ih (all_step? h hs) hat

end Lookup

/-- The location some segments further down. -/
def Location.walk (l : Location) (more : List String) : Location :=
  { l with path := ⟨l.path.segments ++ more⟩, scopePath := ⟨l.scopePath.segments ++ more⟩ }

theorem Location.child_eq_walk (l : Location) (segment : String) :
    l.child segment = l.walk [segment] := rfl

theorem Location.walk_walk (l : Location) (more further : List String) :
    (l.walk more).walk further = l.walk (more ++ further) := by
  simp [walk]

/-- The location of a path in a document, in the scope of the document itself. -/
def Location.inDocument (uri : Uri) (path : List String) : Location :=
  { document := uri, scope := uri, path := ⟨path⟩, scopePath := ⟨path⟩ }

theorem Location.inDocument_child (uri : Uri) (path : List String) (segment : String) :
    (inDocument uri path).child segment = inDocument uri (path ++ [segment]) := rfl

theorem Location.ofDocument_eq (uri : Uri) : ofDocument uri = inDocument uri.normalized [] := rfl

namespace Lookup

/-- No object of a document has a string under one of the keys. -/
def Anonymous (keys : List String) (document : Json) : Prop :=
  document.all (fun value => !value.declares keys) = true

instance (keys : List String) (document : Json) : Decidable (Anonymous keys document) :=
  inferInstanceAs (Decidable (_ = true))

theorem declaredId?_of_anonymous {value : Json} (h : Anonymous keys value) :
    declaredId? keys value = none := by
  have hself := Json.all_self h
  cases value with
  | object members =>
    rw [declaredId?]
    split
    · rfl
    · rw [List.findSome?_eq_none_iff]
      intro key hk
      simp only [Json.declares, Bool.not_eq_true', List.any_eq_false] at hself
      simpa [Json.member?] using hself key hk
  | null | bool | number | string | array => rfl

theorem rescope_of_anonymous {value : Json} (h : Anonymous keys value) (location : Location) :
    rescope keys location value = location := by
  rw [rescope, declaredId?_of_anonymous h]

mutual

theorem findIdentified_of_anonymous (target : Uri) (location : Location) :
    (value : Json) → Anonymous keys value → findIdentified keys target location value = none
  | .object members, h => by
    rw [findIdentified, declaredId?_of_anonymous h]
    simp only [Option.isSome_none, Bool.false_and, Bool.false_eq_true, if_false]
    exact findInMembers_of_anonymous target _ members (Bool.and_eq_true_iff.mp h).2
  | .array elements, h => by
    rw [findIdentified]
    exact findInElements_of_anonymous target location 0 elements (Bool.and_eq_true_iff.mp h).2
  | .null, _ => rfl
  | .bool _, _ => rfl
  | .number _, _ => rfl
  | .string _, _ => rfl

theorem findInMembers_of_anonymous (target : Uri) (inner : Location) :
    (members : List (String × Json)) →
      Json.allMembers (fun value => !value.declares keys) members = true →
      findInMembers keys target inner members = none
  | [], _ => rfl
  | (key, value) :: rest, h => by
    obtain ⟨hvalue, hrest⟩ := Bool.and_eq_true_iff.mp h
    have ihrest := findInMembers_of_anonymous target inner rest hrest
    rw [findInMembers, findIdentified_of_anonymous target (inner.child key) value hvalue, ihrest]
    split <;> rfl

theorem findInElements_of_anonymous (target : Uri) (location : Location) (index : Nat) :
    (elements : List Json) →
      Json.allElements (fun value => !value.declares keys) elements = true →
      findInElements keys target location index elements = none
  | [], _ => rfl
  | value :: rest, h => by
    obtain ⟨hvalue, hrest⟩ := Bool.and_eq_true_iff.mp h
    rw [findInElements, findIdentified_of_anonymous target _ value hvalue]
    exact findInElements_of_anonymous target location (index + 1) rest hrest

end

/-- Navigation goes to the value at the path. -/
theorem navigate_of_anonymous {document : Json} (h : Anonymous keys document) (uri : Uri)
    (path more : List String) :
    navigate keys (.inDocument uri path) document more =
      (document.at? more).map fun value => (.inDocument uri (path ++ more), value) := by
  induction more generalizing path document with
  | nil => simp [navigate]
  | cons segment more ih =>
    rw [navigate, Json.at?_cons]
    cases hs : step? segment document with
    | none => rfl
    | some next =>
      simp only [Option.bind_some]
      rw [rescope_of_anonymous h, Location.inDocument_child, ih (all_step? h hs),
        List.append_assoc, List.singleton_append]

/-- A URI is located at the place that it names. -/
theorem locate_of_anonymous {document value : Json} (h : Anonymous keys document) {root uri : Uri}
    {location : Location}
    (hl : locate keys (.ofDocument root) document uri = some (location, value)) :
    ∃ path, uri.normalized.place? = some path ∧ document.at? path = some value ∧
      location = .inDocument root.normalized path := by
  have hfind : ∀ target, findIdentified keys target (.ofDocument root) document = none :=
    fun target => findIdentified_of_anonymous target _ document h
  unfold locate at hl
  simp only [hfind] at hl
  split at hl
  · cases hf : uri.normalized.fragment with
    | none =>
      rw [hf] at hl
      cases hl
      exact ⟨[], by simp [Uri.place?, hf], rfl, rfl⟩
    | some fragment =>
      rw [hf] at hl
      cases hp : path? uri.normalized with
      | none =>
        rw [hp] at hl
        cases hl
      | some path =>
        simp only [hp] at hl
        rw [Location.ofDocument_eq, navigate_of_anonymous h] at hl
        obtain ⟨found, hat, heq⟩ := Option.map_eq_some_iff.mp hl
        cases heq
        exact ⟨path.segments, place?_of_path? hp, hat, rfl⟩
  · cases hp : path? uri.normalized with
    | none =>
      rw [hp] at hl
      cases hl
    | some path =>
      rw [hp] at hl
      cases hl

end Lookup

namespace Digest

theorem mem_elementPlaces {location : Location} {elements : List Json}
    {place : Location × Json} (h : place ∈ elementPlaces location 0 elements) :
    ∃ i : Nat, elements[i]? = some place.2 ∧ place.1 = location.childIndex i := by
  obtain ⟨⟨value, i⟩, hm, rfl⟩ := List.mem_map.mp h
  rw [List.mem_zipIdx_iff_getElem?] at hm
  exact ⟨i, hm, rfl⟩

theorem mem_memberPlaces {location : Location} {members : List (String × Json)}
    {place : Location × Json} (h : place ∈ memberPlaces location members) :
    ∃ name, (name, place.2) ∈ members ∧ place.1 = location.child name := by
  obtain ⟨⟨name, value⟩, hm, rfl⟩ := List.mem_map.mp h
  exact ⟨name, hm, rfl⟩

/-- A candidate asks for the value itself, for an element of it, or for a member of a map. -/
theorem nestedIn_cases {active : DraftSet} {reading : Reading} {location : Location}
    {value : Json} {place : Location × Json} (h : place ∈ nestedIn active reading location value) :
    place = (location, value) ∨
      (∃ elements, value = .array elements ∧ place ∈ elementPlaces location 0 elements) ∨
      ∃ members name, (reading = .schemaMap ∨ reading = .dependencies) ∧
        value = .object members ∧ (name, place.2) ∈ members ∧ place.1 = location.child name := by
  unfold nestedIn at h
  split at h
  · exact Or.inl (List.mem_singleton.mp h)
  · exact Or.inr (Or.inl ⟨_, rfl, h⟩)
  · exact Or.inl (List.mem_singleton.mp h)
  · exact Or.inr (Or.inl ⟨_, rfl, h⟩)
  · exact Or.inl (List.mem_singleton.mp h)
  · obtain ⟨name, hm, hl⟩ := mem_memberPlaces h
    exact Or.inr (Or.inr ⟨_, name, Or.inl rfl, rfl, (List.mem_filter.mp hm).1, hl⟩)
  · obtain ⟨name, hm, hl⟩ := mem_memberPlaces h
    exact Or.inr (Or.inr ⟨_, name, Or.inr rfl, rfl, (List.mem_filter.mp hm).1, hl⟩)
  · split at h
    · exact Or.inr (Or.inl ⟨_, rfl, (List.mem_filter.mp h).1⟩)
    · cases h
  · split at h
    · exact Or.inl (List.mem_singleton.mp h)
    · cases h
  · cases h

/-- What the reading of an object asks for stands some segments further down. -/
theorem nested_walk {active : DraftSet} {location : Location}
    {members : List (String × Json)} {place : Location × Json}
    (hs : (Json.object members).all Json.isStored = true)
    (h : place ∈ nested active location members) :
    ∃ more, place.1 = location.walk more ∧ (Json.object members).at? more = some place.2 := by
  have hget : ∀ {members : List (String × Json)} {name : String} {value : Json},
      (Json.object members).all Json.isStored = true → (name, value) ∈ members →
      Lookup.step? name (.object members) = some value := by
    intro members name value hs hm
    have hkeys : (Entries.keys members).Nodup := by
      simpa [Json.isStored] using Json.all_self hs
    exact Entries.get?_of_mem hkeys hm
  obtain ⟨⟨key, value⟩, hm, h⟩ := List.mem_flatMap.mp h
  obtain ⟨entry, _, hplace⟩ := List.mem_flatMap.mp h
  have hkey := hget hs hm
  have hvalue : value.all Json.isStored = true := Lookup.all_step? hs hkey
  rw [Location.child_eq_walk] at hplace
  rcases nestedIn_cases hplace with rfl | ⟨elements, rfl, he⟩ | ⟨inner, name, _, rfl, hname, hl⟩
  · exact ⟨[key], rfl, by rw [Json.at?_cons, hkey]; rfl⟩
  · obtain ⟨i, hi, hl⟩ := mem_elementPlaces he
    refine ⟨[key, toString i], ?_, ?_⟩
    · rw [hl, Location.childIndex, Location.child_eq_walk, Location.walk_walk,
        List.singleton_append]
    · have hlength : elements.length ≤ Nat.pow 2 64 := by
        simpa [Json.isStored] using Json.all_self hvalue
      have hlt : i < elements.length := (List.getElem?_eq_some_iff.mp hi).1
      rw [Json.at?_cons, hkey, Option.bind_some, Json.at?_cons, Lookup.step?,
        Lookup.index?_toString (by omega), Option.bind_some, hi]
      rfl
  · refine ⟨[key, name], ?_, ?_⟩
    · rw [hl, Location.child_eq_walk, Location.walk_walk, List.singleton_append]
    · rw [Json.at?_cons, hkey, Option.bind_some, Json.at?_cons, hget hvalue hname]
      rfl

/-- What the reading of an object asks for stands at its path. -/
theorem nested_at {active : DraftSet} {uri : Uri} {path : List String}
    {members : List (String × Json)} {place : Location × Json}
    (hs : (Json.object members).all Json.isStored = true)
    (h : place ∈ nested active (.inDocument uri path) members) :
    ∃ more, place.1 = .inDocument uri (path ++ more) ∧
      (Json.object members).at? more = some place.2 :=
  nested_walk hs h

end Digest
end SchemaAtlas
