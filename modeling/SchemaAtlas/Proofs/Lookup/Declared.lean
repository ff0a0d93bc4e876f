import SchemaAtlas.Proofs.Lookup.Scopes

/-!
# Looking up declared identifiers

An identifier is looked up in the values of a document in their order, all of which may start
a scope, but for those below the keys of data. `findIdentified_eq_find?` says so. Schemas are
read by their keywords instead: a map of schemas starts no scope then, and a property may have
any name. `OpenDocument.locate_declared` says for which schemas the look-up comes to what the
reading comes to.
-/

namespace SchemaAtlas

namespace Lookup

variable {keys : List String}

mutual

/-- The values of a document in their order, with the locations that look-ups give them. -/
def located (keys : List String) (location : Location) : Json → List (Location × Json)
  | .object members =>
    (location, .object members) ::
      locatedMembers keys (rescope keys location (.object members)) members
  | .array elements => (location, .array elements) :: locatedElements keys location 0 elements
  | value => [(location, value)]

def locatedMembers (keys : List String) (inner : Location) :
    List (String × Json) → List (Location × Json)
  | [] => []
  | (key, value) :: rest =>
    located keys (inner.child key) value ++ locatedMembers keys inner rest

def locatedElements (keys : List String) (location : Location) (index : Nat) :
    List Json → List (Location × Json)
  | [] => []
  | value :: rest =>
    located keys (location.childIndex index) value ++
      locatedElements keys location (index + 1) rest

end

/-- Whether a value declares an identifier with the scope `target`. -/
def declaresAt (keys : List String) (target : Uri) (place : Location × Json) : Bool :=
  (declaredId? keys place.2).isSome && (rescope keys place.1 place.2).scope = target

/-- Whether no key of data is on the way to a location. -/
def avoidsData (location : Location) : Bool :=
  location.path.segments.all fun segment => !dataKeys.contains segment

theorem avoidsData_child (location : Location) (segment : String) :
    avoidsData (location.child segment) = (avoidsData location && !dataKeys.contains segment) := by
  simp [avoidsData]

/-- An index is no key of data. -/
theorem avoidsData_childIndex (location : Location) (index : Nat) :
    avoidsData (location.childIndex index) = avoidsData location := by
  have hdata : ∀ key ∈ dataKeys, key.toList.all Char.isDigit = false := by decide
  have hdigits : (toString index).toList.all Char.isDigit = true := by
    have hlist : (toString index).toList = Nat.toDigits 10 index := Nat.toList_repr
    rw [hlist, List.all_eq_true]
    exact fun c hc => Nat.isDigit_of_mem_toDigits (by decide) (by decide) hc
  have hindex : dataKeys.contains (toString index) = false := by
    rw [List.contains_eq_mem, decide_eq_false_iff_not]
    intro hm
    rw [hdata _ hm] at hdigits
    cases hdigits
  rw [Location.childIndex, avoidsData_child, hindex, Bool.not_false, Bool.and_true]

theorem rescope_document (keys : List String) (location : Location) (value : Json) :
    (rescope keys location value).document = location.document :=
  congrArg Prod.fst (place_rescope keys location value)

theorem rescope_path (location : Location) (value : Json) :
    (rescope keys location value).path = location.path :=
  congrArg Prod.snd (place_rescope keys location value)

theorem document_of_navigate {location : Location} {value : Json} {place : Location × Json}
    {segments : List String} (h : navigate keys location value segments = some place) :
    place.1.document = location.document := by
  induction segments generalizing location value with
  | nil =>
    cases h
    rfl
  | cons segment rest ih =>
    rw [navigate] at h
    split at h
    · rw [ih h, Location.child_document, rescope_document]
    · cases h

theorem path_of_navigate {location : Location} {value : Json} {place : Location × Json}
    {segments : List String} (h : navigate keys location value segments = some place) :
    place.1.path.segments = location.path.segments ++ segments := by
  induction segments generalizing location value with
  | nil =>
    cases h
    exact (List.append_nil _).symm
  | cons segment rest ih =>
    rw [navigate] at h
    split at h
    · rw [ih h, Location.child_path, rescope_path, Pointer.child_segments, List.append_assoc,
        List.singleton_append]
    · cases h

/-- A value lies in another one: it is that value, or lies in a member or in an element. -/
inductive Lies (keys : List String) (place : Location × Json) : Location → Json → Prop
  | here : Lies keys place place.1 place.2
  | member {location : Location} {members : List (String × Json)} {key : String} {value : Json} :
      (key, value) ∈ members →
      Lies keys place ((rescope keys location (.object members)).child key) value →
      Lies keys place location (.object members)
  | element {location : Location} {elements : List Json} {index : Nat} {value : Json} :
      elements[index]? = some value → Lies keys place (location.childIndex index) value →
      Lies keys place location (.array elements)

mutual

theorem lies_of_located {location : Location} {place : Location × Json} :
    (value : Json) → place ∈ located keys location value → Lies keys place location value
  | .object members, h => by
    rcases List.mem_cons.mp h with rfl | h
    · exact .here
    · obtain ⟨key, value, hm, hl⟩ := lies_of_locatedMembers members h
      exact .member hm hl
  | .array elements, h => by
    rcases List.mem_cons.mp h with rfl | h
    · exact .here
    · obtain ⟨i, value, hi, hl⟩ := lies_of_locatedElements elements h
      rw [Nat.zero_add] at hl
      exact .element hi hl
  | .null, h => List.mem_singleton.mp h ▸ .here
  | .bool _, h => List.mem_singleton.mp h ▸ .here
  | .number _, h => List.mem_singleton.mp h ▸ .here
  | .string _, h => List.mem_singleton.mp h ▸ .here

theorem lies_of_locatedMembers {inner : Location} {place : Location × Json} :
    (members : List (String × Json)) → place ∈ locatedMembers keys inner members →
      ∃ key value, (key, value) ∈ members ∧ Lies keys place (inner.child key) value
  | [], h => by cases h
  | (key, value) :: rest, h => by
    rcases List.mem_append.mp h with h | h
    · exact ⟨key, value, List.mem_cons_self, lies_of_located value h⟩
    · obtain ⟨key, value, hm, hl⟩ := lies_of_locatedMembers rest h
      exact ⟨key, value, List.mem_cons_of_mem _ hm, hl⟩

theorem lies_of_locatedElements {location : Location} {index : Nat} {place : Location × Json} :
    (elements : List Json) → place ∈ locatedElements keys location index elements →
      ∃ i value, elements[i]? = some value ∧ Lies keys place (location.childIndex (index + i)) value
  | [], h => by cases h
  | value :: rest, h => by
    rcases List.mem_append.mp h with h | h
    · exact ⟨0, value, rfl, lies_of_located value h⟩
    · obtain ⟨i, value, hi, hl⟩ := lies_of_locatedElements rest h
      refine ⟨i + 1, value, hi, ?_⟩
      rwa [Nat.add_right_comm] at hl

end

theorem locatedMembers_subset {inner : Location} {members : List (String × Json)} {key : String}
    {value : Json} (h : (key, value) ∈ members) :
    located keys (inner.child key) value ⊆ locatedMembers keys inner members := by
  induction members with
  | nil => cases h
  | cons first rest ih =>
    rcases List.mem_cons.mp h with rfl | h
    · exact List.subset_append_left _ _
    · exact List.Subset.trans (ih h) (List.subset_append_right _ _)

theorem locatedElements_subset {location : Location} {elements : List Json} {start index : Nat}
    {value : Json} (h : elements[index]? = some value) :
    located keys (location.childIndex (start + index)) value ⊆
      locatedElements keys location start elements := by
  induction elements generalizing start index with
  | nil => cases h
  | cons first rest ih =>
    cases index with
    | zero =>
      cases h
      exact List.subset_append_left _ _
    | succ index =>
      have hrest := @ih (start + 1) index h
      rw [Nat.add_right_comm] at hrest
      exact List.Subset.trans hrest (List.subset_append_right _ _)

theorem mem_located_self (location : Location) (value : Json) :
    (location, value) ∈ located keys location value := by
  cases value <;> exact List.mem_cons_self

/-- The values listed for a document are those that lie in it. -/
theorem mem_located {place : Location × Json} {location : Location} {value : Json} :
    place ∈ located keys location value ↔ Lies keys place location value := by
  refine ⟨lies_of_located value, fun h => ?_⟩
  induction h with
  | here => exact mem_located_self _ _
  | member hm _ ih => exact List.mem_cons_of_mem _ (locatedMembers_subset hm ih)
  | @element location elements index value hi _ ih =>
    apply List.mem_cons_of_mem
    apply locatedElements_subset hi
    rw [Nat.zero_add]
    exact ih

namespace Lies

variable {place : Location × Json} {location : Location} {value : Json}

theorem trans (h : Lies keys place location value) {further : Location × Json}
    (h' : Lies keys further place.1 place.2) : Lies keys further location value := by
  induction h with
  | here => exact h'
  | member hm _ ih => exact .member hm ih
  | element hi _ ih => exact .element hi ih

/-- What lies in a value has its path in front. -/
theorem path (h : Lies keys place location value) :
    location.path.segments <+: place.1.path.segments := by
  induction h with
  | here => exact List.prefix_refl _
  | member _ _ ih =>
    rw [Location.child_path, rescope_path] at ih
    exact (List.prefix_append _ _).trans ih
  | element _ _ ih => exact (List.prefix_append _ _).trans ih

/-- What lies in a value is found by its path. -/
theorem navigate (h : Lies keys place location value) (hs : value.all Json.isStored = true) :
    ∃ more, place.1.path.segments = location.path.segments ++ more ∧
      Lookup.navigate keys location value more = some place := by
  induction h with
  | here => exact ⟨[], (List.append_nil _).symm, rfl⟩
  | @member location members key value hm _ ih =>
    have hkeys : (Entries.keys members).Nodup := by
      simpa [Json.isStored] using Json.all_self hs
    have hget : step? key (.object members) = some value := Entries.get?_of_mem hkeys hm
    obtain ⟨more, hpath, hfound⟩ := ih (all_step? hs hget)
    refine ⟨key :: more, ?_, ?_⟩
    · rw [hpath, Location.child_path, rescope_path, Pointer.child_segments, List.append_assoc,
        List.singleton_append]
    · rw [Lookup.navigate, hget]
      exact hfound
  | @element location elements index value hi _ ih =>
    have hlength : elements.length ≤ Nat.pow 2 64 := by
      simpa [Json.isStored] using Json.all_self hs
    have hlt : index < elements.length := (List.getElem?_eq_some_iff.mp hi).1
    have hget : step? (toString index) (.array elements) = some value := by
      rw [step?, index?_toString (by omega), Option.bind_some, hi]
    obtain ⟨more, hpath, hfound⟩ := ih (all_step? hs hget)
    refine ⟨toString index :: more, ?_, ?_⟩
    · rw [hpath, Location.childIndex, Location.child_path, Pointer.child_segments,
        List.append_assoc, List.singleton_append]
    · rw [Lookup.navigate, hget]
      exact hfound

end Lies

/-- Nothing below a key of data is looked at. -/
theorem find?_located_of_data {target : Uri} {location : Location} {value : Json}
    (h : avoidsData location = false) :
    (located keys location value).find?
      (fun place => declaresAt keys target place && avoidsData place.1) = none := by
  rw [List.find?_eq_none]
  intro place hp
  obtain ⟨more, hmore⟩ := (mem_located.mp hp).path
  rw [avoidsData, ← hmore, List.all_append, show location.path.segments.all
    (fun segment => !dataKeys.contains segment) = false from h, Bool.false_and, Bool.and_false]
  exact Bool.false_ne_true

theorem declaresAt_of_none {target : Uri} {place : Location × Json}
    (h : declaredId? keys place.2 = none) : declaresAt keys target place = false := by
  rw [declaresAt, h]
  rfl

mutual

/-- The value that an identifier is looked up as: the first that declares it with no key of
data on the way. -/
theorem findIdentified_eq_find? {target : Uri} {location : Location}
    (h : avoidsData location = true) : (value : Json) →
      findIdentified keys target location value = (located keys location value).find?
        fun place => declaresAt keys target place && avoidsData place.1
  | .object members => by
    rw [findIdentified, located, List.find?_cons, h, Bool.and_true]
    have hinner : avoidsData (rescope keys location (.object members)) = true := by
      rw [avoidsData, rescope_path]
      exact h
    have hmembers : findInMembers keys target _ members = _ := findInMembers_eq_find? hinner members
    change (if declaresAt keys target (location, .object members) = true then _ else _) = _
    cases declaresAt keys target (location, .object members) with
    | true => rfl
    | false => exact hmembers
  | .array elements => by
    rw [findIdentified, located, List.find?_cons, declaresAt_of_none rfl, Bool.false_and]
    exact findInElements_eq_find? h elements
  | .null => rfl
  | .bool _ => rfl
  | .number _ => rfl
  | .string _ => rfl

theorem findInMembers_eq_find? {target : Uri} {inner : Location} (h : avoidsData inner = true) :
    (members : List (String × Json)) →
      findInMembers keys target inner members = (locatedMembers keys inner members).find?
        fun place => declaresAt keys target place && avoidsData place.1
  | [] => rfl
  | (key, value) :: rest => by
    have hrest : findInMembers keys target inner rest = _ := findInMembers_eq_find? h rest
    rw [findInMembers, locatedMembers, List.find?_append]
    cases hkey : dataKeys.contains key with
    | true =>
      have hdata : avoidsData (inner.child key) = false := by
        rw [avoidsData_child, hkey, Bool.not_true, Bool.and_false]
      rw [find?_located_of_data hdata, Option.none_or]
      exact hrest
    | false =>
      have hopen : avoidsData (inner.child key) = true := by
        rw [avoidsData_child, h, hkey, Bool.not_false, Bool.and_true]
      rw [findIdentified_eq_find? hopen value, ← hrest]
      cases (located keys (inner.child key) value).find?
        fun place => declaresAt keys target place && avoidsData place.1 <;> rfl

theorem findInElements_eq_find? {target : Uri} {location : Location} {index : Nat}
    (h : avoidsData location = true) : (elements : List Json) →
      findInElements keys target location index elements =
        (locatedElements keys location index elements).find?
          fun place => declaresAt keys target place && avoidsData place.1
  | [] => rfl
  | value :: rest => by
    have hopen : avoidsData (location.childIndex index) = true := by
      rw [avoidsData_childIndex]
      exact h
    rw [findInElements, locatedElements, List.find?_append, findIdentified_eq_find? hopen value,
      ← findInElements_eq_find? h rest]
    cases (located keys (location.childIndex index) value).find?
      fun place => declaresAt keys target place && avoidsData place.1 <;> rfl

end

end Lookup

/-! ## Reading by keywords -/

namespace Position

/-- One step down from a schema, to a place at which the reading of its keywords asks for a
schema. -/
def Nests (p q : Position) : Prop :=
  ∃ members, p.members? = some members ∧ q.context = p.context ∧
    (q.location, q.value) ∈ Digest.nested p.context.active p.inner members

/-- Any number of steps down by keywords. -/
abbrev Contains : Position → Position → Prop := Relation.ReflTransGen Nests

/-- No map of schemas that a schema holds declares an identifier. -/
def MapsAreQuiet (p : Position) : Prop :=
  ∀ {members key value}, p.members? = some members → (key, value) ∈ members →
    Catalog.isMap key = true → Lookup.declaredId? p.context.active.idKeys value = none

end Position

namespace Digest

open Lookup

/-- A place that the reading of keywords asks for lies in the object, at that place at least;
if no map starts a scope, with that location. -/
theorem nested_lies {active : DraftSet} {keys : List String} {inner location : Location}
    {members : List (String × Json)} {place : Location × Json}
    (h : place ∈ nested active inner members)
    (hplace : (rescope keys location (.object members)).place = inner.place) :
    ∃ l, Lies keys (l, place.2) location (.object members) ∧ l.place = place.1.place ∧
      (rescope keys location (.object members) = inner →
        (∀ key value, (key, value) ∈ members → Catalog.isMap key = true →
          declaredId? keys value = none) → l = place.1) := by
  have hchild : ∀ {l l' : Location} (segment : String), l.place = l'.place →
      (l.child segment).place = (l'.child segment).place := by
    intro l l' segment heq
    obtain ⟨hdocument, hpath⟩ := Prod.mk.inj heq
    rw [Location.place, Location.place, Location.child_document, Location.child_document,
      Location.child_path, Location.child_path, hdocument, hpath]
  obtain ⟨⟨key, value⟩, hm, h⟩ := List.mem_flatMap.mp h
  obtain ⟨entry, he, hasked⟩ := List.mem_flatMap.mp h
  obtain ⟨hentry, rfl⟩ := mem_applicable (List.mem_filter.mp he).1
  have hkey := hchild entry.key hplace
  rcases nestedIn_cases hasked with rfl | ⟨elements, rfl, hp⟩ |
    ⟨parts, name, hreading, rfl, hname, hl⟩
  · refine ⟨(rescope keys location (.object members)).child entry.key, .member hm .here, hkey, ?_⟩
    intro heq _
    rw [heq]
  · obtain ⟨index, hi, hl⟩ := mem_elementPlaces hp
    refine ⟨((rescope keys location (.object members)).child entry.key).childIndex index,
      .member hm (.element hi .here), ?_, ?_⟩
    · rw [hl]
      exact hchild _ hkey
    · intro heq _
      rw [heq, hl]
  · refine ⟨(rescope keys ((rescope keys location (.object members)).child entry.key)
      (.object parts)).child name, .member hm (.member hname .here), ?_, ?_⟩
    · rw [hl]
      exact hchild _ ((place_rescope _ _ _).trans hkey)
    · intro heq hquiet
      have hnone := hquiet entry.key (.object parts) hm (Catalog.isMap_eq_true hentry hreading)
      rw [heq, hl]
      simp only [rescope, hnone]

end Digest

namespace Position

/-- A schema that is read by keywords lies in the document, at its place; if no map of a schema
above it starts a scope, with its location. -/
theorem Contains.lies {root p : Position} (h : root.Contains p) :
    p.context = root.context ∧
      ∃ l, Lookup.Lies root.context.active.idKeys (l, p.value) root.location root.value ∧
        l.place = p.location.place ∧
        ((∀ q, root.Contains q → q.Contains p → q.MapsAreQuiet) → l = p.location) := by
  induction h with
  | refl => exact ⟨rfl, root.location, .here, rfl, fun _ => rfl⟩
  | @tail q p hq hstep ih =>
    obtain ⟨hcontext, l, hlies, hplace, heq⟩ := ih
    obtain ⟨members, hm, hc, hnested⟩ := hstep
    have hv := value_of_members? hm
    rw [hv] at hlies
    have hrescope : (Lookup.rescope root.context.active.idKeys l (.object members)).place =
        q.inner.place := by
      rw [Lookup.place_rescope, hplace, inner, Lookup.place_rescope]
    obtain ⟨l', hlies', hplace', heq'⟩ := Digest.nested_lies hnested hrescope
    refine ⟨hc.trans hcontext, l', hlies.trans hlies', hplace', ?_⟩
    intro hquiet
    have hstep : q.Nests p := ⟨members, hm, hc, hnested⟩
    have hl : l = q.location := heq fun q' hq' hbelow => hquiet q' hq' (hbelow.tail hstep)
    apply heq'
    · rw [hl, inner, hv, hcontext]
    · intro key value hmember hmap
      have hmaps := hquiet q hq (.single hstep) hm hmember hmap
      rwa [hcontext] at hmaps

end Position

namespace OpenDocument

/-- The position at which the reading of a document begins. -/
def root (document : OpenDocument) : Position :=
  ⟨document, .ofDocument document.uri, document.document⟩

/-- Whether a URI is another one than that of the document, without a fragment or with a plain
name as its fragment. -/
def isForeignOrPlain (document : OpenDocument) (uri : Uri) : Bool :=
  match uri.fragment with
  | none => uri.withoutFragment ≠ document.uri.normalized
  | some fragment => fragment.front ≠ '/'

/-- Such a URI is looked up as an identifier. -/
theorem locate_eq_find? {document : OpenDocument} {uri : Uri} (hn : uri.normalized = uri)
    (h : document.isForeignOrPlain uri = true) :
    document.locate uri = (Lookup.located document.active.idKeys (.ofDocument document.uri)
      document.document).find? fun place =>
        Lookup.declaresAt document.active.idKeys uri place && Lookup.avoidsData place.1 := by
  rw [← Lookup.findIdentified_eq_find? rfl]
  have hpath : Lookup.path? uri = none := by
    unfold Lookup.path?
    unfold isForeignOrPlain at h
    split
    · rename_i fragment hf
      rw [hf] at h
      exact if_neg (by simpa using h)
    · rfl
  unfold locate Lookup.locate
  simp only [hn, hpath]
  split
  · rename_i hbase
    cases hf : uri.fragment with
    | none =>
      rw [isForeignOrPlain, hf] at h
      exact absurd hbase (by simpa [Location.ofDocument] using h)
    | some fragment => rfl
  · cases Lookup.findIdentified document.active.idKeys uri (.ofDocument document.uri)
      document.document <;> rfl

/-- A value of a document is found by its own path. -/
theorem navigate_of_mem {document : OpenDocument} {place : Location × Json}
    (hs : document.document.all Json.isStored = true)
    (h : place ∈ Lookup.located document.active.idKeys (.ofDocument document.uri)
      document.document) :
    Lookup.navigate document.active.idKeys (.ofDocument document.uri) document.document
      place.1.path.segments = some place := by
  obtain ⟨more, hpath, hfound⟩ := (Lookup.mem_located.mp h).navigate hs
  rw [hpath]
  exact hfound

/-- A schema that declares an identifier is found under it, at its own location, if and only if
no key of data is on its path and following the path gives it the same location. The latter is
so if no map of a schema above it declares an identifier. -/
theorem locate_declared {document : OpenDocument} {p : Position} {id : String} {uri : Uri}
    (hs : document.document.all Json.isStored = true) (hp : document.root.Contains p)
    (hid : Lookup.declaredId? document.active.idKeys p.value = some id)
    (hu : p.location.resolve id = .ok uri) (hforeign : document.isForeignOrPlain uri = true)
    (honly : ∀ place ∈ Lookup.located document.active.idKeys (.ofDocument document.uri)
      document.document, Lookup.declaresAt document.active.idKeys uri place = true →
        place.1.path = p.location.path) :
    (document.locate uri = some (p.location, p.value) ↔
      Lookup.avoidsData p.location = true ∧
        Lookup.navigate document.active.idKeys (.ofDocument document.uri) document.document
          p.location.path.segments = some (p.location, p.value)) ∧
    ((∀ q, document.root.Contains q → q.Contains p → q.MapsAreQuiet) →
      Lookup.navigate document.active.idKeys (.ofDocument document.uri) document.document
        p.location.path.segments = some (p.location, p.value)) := by
  obtain ⟨_, l, hlies, hplace, hquiet⟩ := hp.lies
  have hpath : l.path = p.location.path := congrArg Prod.snd hplace
  have hmem : (l, p.value) ∈ Lookup.located document.active.idKeys (.ofDocument document.uri)
      document.document := Lookup.mem_located.mpr hlies
  have hfound := navigate_of_mem hs hmem
  rw [hpath] at hfound
  refine ⟨?_, fun h => by rw [hfound, hquiet h]⟩
  have hn : uri.normalized = uri := by
    unfold Location.resolve at hu
    cases hjoin : p.location.scope.join id with
    | error fault =>
      rw [hjoin] at hu
      cases hu
    | ok joined =>
      rw [hjoin] at hu
      cases hu
      exact Uri.normalized_of_fragment_ne (Uri.normalized_fragment_ne joined)
  have hdeclares : Lookup.declaresAt document.active.idKeys uri (p.location, p.value) = true := by
    simp [Lookup.declaresAt, Lookup.rescope, hid, Location.withId, hu, Except.map]
  rw [locate_eq_find? hn hforeign]
  constructor
  · intro h
    have hsearched := List.find?_some h
    have hwalked := navigate_of_mem hs (List.mem_of_find?_eq_some h)
    exact ⟨(Bool.and_eq_true_iff.mp hsearched).2, hwalked⟩
  · rintro ⟨havoids, hwalked⟩
    cases hfound.symm.trans hwalked
    cases hsearch : (Lookup.located document.active.idKeys (.ofDocument document.uri)
        document.document).find? fun place =>
          Lookup.declaresAt document.active.idKeys uri place && Lookup.avoidsData place.1 with
    | none =>
      have hnot := List.find?_eq_none.mp hsearch _ hmem
      rw [hdeclares, havoids] at hnot
      exact absurd rfl hnot
    | some found =>
      -- nothing else declares the identifier, and the path tells what was found
      have hsearched := List.find?_some hsearch
      have hdeclared := (Bool.and_eq_true_iff.mp hsearched).1
      have hfoundMem := List.mem_of_find?_eq_some hsearch
      have hown := navigate_of_mem hs hfoundMem
      rw [honly found hfoundMem hdeclared] at hown
      exact hown.symm.trans hfound

/-- A document with one property, which declares a plain name. -/
def withProperty (name : String) : OpenDocument :=
  { uri := ⟨"http", some "e.com", .segments ["r.json"], none, none⟩
    document := .object [("properties", .object [(name, .object [("$id", .string "#x")])])]
    draft := .draft7
    active := .all }

/-- The property of the document. -/
def property (name : String) : Position :=
  ⟨withProperty name, ((withProperty name).root.location.child "properties").child name,
    .object [("$id", .string "#x")]⟩

theorem contains_property {name : String} (h : name.isEmpty = false) :
    (withProperty name).root.Contains (property name) := by
  have hentry : ∃ entry ∈ (Catalog.applicable "properties" .all).filter (·.expects.accepts .object),
      entry.reading = .schemaMap := by
    decide +kernel
  obtain ⟨entry, hm, hreading⟩ := hentry
  refine .single ⟨_, rfl, rfl, Digest.mem_nested List.mem_cons_self hm ?_⟩
  rw [hreading]
  change _ ∈ Digest.memberPlaces _ ([(name, _)].filter fun member => !member.1.isEmpty)
  rw [List.filter_cons_of_pos (by simp [h])]
  exact List.mem_cons_self

theorem locate_property :
    (withProperty "a").locate ⟨"http", some "e.com", .segments ["r.json"], none, some "x"⟩ =
      some ((property "a").location, (property "a").value) := by
  have hid : Lookup.declaredId? (withProperty "a").active.idKeys (property "a").value =
      some "#x" := by decide +kernel
  have hu : (property "a").location.resolve "#x" =
      .ok ⟨"http", some "e.com", .segments ["r.json"], none, some "x"⟩ := by decide +kernel
  have hiff := (locate_declared (by decide +kernel) (contains_property (by decide)) hid hu
    (by decide +kernel) (by decide +kernel)).1
  exact hiff.mpr ⟨by decide +kernel, by rfl⟩

/-- A property that has the name of a key of data is not found. -/
theorem unlocated_property : ∃ uri : Uri,
    (withProperty "default").document.all Json.isStored = true ∧
    (withProperty "default").root.Contains (property "default") ∧
    Lookup.declaredId? (withProperty "default").active.idKeys (property "default").value =
      some "#x" ∧
    (property "default").location.resolve "#x" = .ok uri ∧
    (withProperty "default").isForeignOrPlain uri = true ∧
    (∀ place ∈ Lookup.located (withProperty "default").active.idKeys
      (.ofDocument (withProperty "default").uri) (withProperty "default").document,
        Lookup.declaresAt (withProperty "default").active.idKeys uri place = true →
          place.1.path = (property "default").location.path) ∧
    (withProperty "default").locate uri = none := by
  refine ⟨⟨"http", some "e.com", .segments ["r.json"], none, some "x"⟩, by decide +kernel,
    contains_property (by decide), by decide +kernel, by decide +kernel, by decide +kernel,
    by decide +kernel, ?_⟩
  rw [← Option.isNone_iff_eq_none]
  decide +kernel

end OpenDocument
end SchemaAtlas
