import SchemaAtlas.Proofs.Lookup.Navigated

/-!
# One schema at a place

The schemas that keywords read stand at the values of the keywords, or one segment further down
inside them. Which of both is the case is settled by the key and by the value, so a path leads
from a schema to one position at most (`Position.descend?`). `Position.Contains.eq_of_place` says
what follows for the schemas of a document: two of them at the same place are the same, with the
scopes in which they are read.
-/

namespace SchemaAtlas

/-- Whether the schemas that a keyword reads stand inside its value: that is an array, or a map. -/
def Json.isParted (key : String) : Json → Bool
  | .array _ => true
  | .object _ => Catalog.isMap key
  | _ => false

namespace Digest

variable {active : DraftSet} {entry : CatalogEntry} {location : Location} {value : Json}
variable {place : Location × Json}

/-- Keywords with one schema accept no arrays. -/
theorem not_accepts_array : ∀ entry ∈ Catalog.entries, entry.reading = .schema →
    entry.expects.accepts .array = false := by
  decide +kernel

/-- A schema stands at the value of its keyword, or one segment further down. -/
theorem nestedIn_parted (he : entry ∈ Catalog.entries)
    (ha : entry.expects.accepts (Shape.of value) = true) (hs : value.all Json.isStored = true)
    (h : place ∈ nestedIn active entry.reading location value) :
    (value.isParted entry.key = false ∧ place = (location, value)) ∨
      (value.isParted entry.key = true ∧
        ∃ part, Lookup.step? part value = some place.2 ∧ place.1 = location.child part) := by
  have helement : ∀ {elements}, value = .array elements →
      place ∈ elementPlaces location 0 elements → value.isParted entry.key = true ∧
        ∃ part, Lookup.step? part value = some place.2 ∧ place.1 = location.child part := by
    rintro elements rfl hp
    obtain ⟨i, hi, hl⟩ := mem_elementPlaces hp
    have hlength : elements.length ≤ Nat.pow 2 64 := by
      simpa [Json.isStored] using Json.all_self hs
    have hlt : i < elements.length := (List.getElem?_eq_some_iff.mp hi).1
    refine ⟨rfl, toString i, ?_, hl⟩
    rw [Lookup.step?, Lookup.index?_toString (by omega), Option.bind_some, hi]
  have hmember : entry.reading = .schemaMap ∨ entry.reading = .dependencies →
      ∀ {members kept}, value = .object members → kept ⊆ members →
      place ∈ memberPlaces location kept → value.isParted entry.key = true ∧
        ∃ part, Lookup.step? part value = some place.2 ∧ place.1 = location.child part := by
    rintro hr members kept rfl hkept hp
    obtain ⟨name, hm, hl⟩ := mem_memberPlaces hp
    have hkeys : (Entries.keys members).Nodup := by simpa [Json.isStored] using Json.all_self hs
    exact ⟨Catalog.isMap_eq_true he hr, name, Entries.get?_of_mem hkeys (hkept hm), hl⟩
  have hitself : (∀ elements, value ≠ .array elements) →
      entry.reading = .schema ∨ entry.reading = .schemaList ∨ entry.reading = .items ∨
        entry.reading = .types → value.isParted entry.key = false := by
    intro harray hr
    cases value with
    | array elements => exact absurd rfl (harray elements)
    | object => exact Catalog.isMap_eq_false he hr
    | null | bool | number | string => rfl
  unfold nestedIn at h
  split at h
  · rename_i hr
    refine Or.inl ⟨hitself ?_ (Or.inl hr), List.mem_singleton.mp h⟩
    rintro elements rfl
    rw [show Shape.of (.array elements) = .array from rfl, not_accepts_array entry he hr] at ha
    cases ha
  · exact Or.inr (helement rfl h)
  · rename_i hr
    exact Or.inl ⟨hitself (by simp) (Or.inr (Or.inl hr)), List.mem_singleton.mp h⟩
  · exact Or.inr (helement rfl h)
  · rename_i hr harray
    exact Or.inl ⟨hitself harray (Or.inr (Or.inr (Or.inl hr))), List.mem_singleton.mp h⟩
  · rename_i hr
    exact Or.inr (hmember (Or.inl hr) rfl List.filter_sublist.subset h)
  · rename_i hr
    exact Or.inr (hmember (Or.inr hr) rfl List.filter_sublist.subset h)
  · split at h
    · exact Or.inr (helement rfl (List.mem_filter.mp h).1)
    · cases h
  · rename_i hr harray
    split at h
    · exact Or.inl ⟨hitself harray (Or.inr (Or.inr (Or.inr hr))), List.mem_singleton.mp h⟩
    · cases h
  · cases h

end Digest

namespace Position

variable {root p q : Position}

/-- What a path leads to from a schema, if every key on it is read as a keyword. -/
def descend? (p : Position) : List String → Option Position
  | [] => some p
  | key :: rest =>
    match p.value.member? key with
    | none => none
    | some value =>
      if value.isParted key then
        match rest with
        | [] => none
        | part :: rest =>
          match Lookup.step? part value with
          | none => none
          | some next => descend? ⟨p.context, (p.inner.child key).child part, next⟩ rest
      else descend? ⟨p.context, p.inner.child key, value⟩ rest

/-- A nested schema is what its path leads to, and so it is on the way to those nested in it. -/
theorem Nests.descend? (h : p.Nests q) (hs : p.value.all Json.isStored = true) :
    q.value.all Json.isStored = true ∧
      ∃ more, q.location.path.segments = p.location.path.segments ++ more ∧
        ∀ rest, p.descend? (more ++ rest) = q.descend? rest := by
  obtain ⟨context, location, value⟩ := q
  obtain ⟨members, hm, rfl, hnested⟩ := h
  have hv := value_of_members? hm
  obtain ⟨⟨key, found⟩, hmem, hasked⟩ := List.mem_flatMap.mp hnested
  obtain ⟨entry, he, hplace⟩ := List.mem_flatMap.mp hasked
  obtain ⟨happlies, haccepts⟩ := List.mem_filter.mp he
  obtain ⟨hentry, rfl⟩ := Digest.mem_applicable happlies
  rw [hv] at hs
  have hkeys : (Entries.keys members).Nodup := by simpa [Json.isStored] using Json.all_self hs
  have hstep : Lookup.step? entry.key (.object members) = some found :=
    Entries.get?_of_mem hkeys hmem
  have hkey : p.value.member? entry.key = some found := by
    rw [hv]
    exact hstep
  have hstored := Lookup.all_step? hs hstep
  rcases Digest.nestedIn_parted hentry haccepts hstored hplace with
    ⟨hwhole, hplace⟩ | ⟨hparted, part, hpart, hl⟩
  · obtain rfl : location = p.inner.child entry.key := congrArg Prod.fst hplace
    obtain rfl : value = found := congrArg Prod.snd hplace
    refine ⟨hstored, [entry.key], by simp [inner_path], fun rest => ?_⟩
    simp only [List.singleton_append, Position.descend?, hkey, hwhole, Bool.false_eq_true, if_false]
  · obtain rfl : location = (p.inner.child entry.key).child part := hl
    refine ⟨Lookup.all_step? hstored hpart, [entry.key, part], by simp [inner_path], fun rest => ?_⟩
    simp only [List.cons_append, List.nil_append, Position.descend?, hkey, hparted, if_true, hpart]

theorem Contains.descend? (h : root.Contains p) (hs : root.value.all Json.isStored = true) :
    ∃ more, p.location.path.segments = root.location.path.segments ++ more ∧
      root.descend? more = some p := by
  induction h using Relation.ReflTransGen.head_induction_on with
  | refl => exact ⟨[], (List.append_nil _).symm, rfl⟩
  | head hstep _ ih =>
    obtain ⟨hstored, first, hfirst, hdescend⟩ := hstep.descend? hs
    obtain ⟨more, hmore, hfound⟩ := ih hstored
    refine ⟨first ++ more, ?_, (hdescend more).trans hfound⟩
    rw [hmore, hfirst, List.append_assoc]

/-- At a place of a document keywords read one schema at most. -/
theorem Contains.eq_of_place (hp : root.Contains p) (hq : root.Contains q)
    (hs : root.value.all Json.isStored = true) (h : p.location.place = q.location.place) :
    p = q := by
  obtain ⟨more, hmore, hfound⟩ := hp.descend? hs
  obtain ⟨more', hmore', hfound'⟩ := hq.descend? hs
  have hpath : p.location.path.segments = q.location.path.segments :=
    congrArg (fun place => place.2.segments) h
  rw [hmore, hmore'] at hpath
  rw [List.append_cancel_left hpath, hfound'] at hfound
  exact (Option.some.inj hfound).symm

end Position
end SchemaAtlas
