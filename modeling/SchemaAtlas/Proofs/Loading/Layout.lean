import SchemaAtlas.Proofs.Loading.Catalogued
import SchemaAtlas.Proofs.Pointer.Text

/-!
# Where nested schemas stand

A keyword lists its schemas with the segments that lead to them below its key. The segments are
told from the list alone, while the schemas are read at the places of their values. Both agree
unless the keyword leaves something of its value out of the list: the names of types in front of a
schema, or the key itself in place of a list (`Digest.keyword_stands_iff`).
-/

namespace SchemaAtlas

/-- The schemas of a keyword stand at their segments below a path. -/
def Keyword.StandsBelow (path : List String) (k : Keyword Schema) : Prop :=
  ∀ entry ∈ k.subschemas, entry.2.location.path.segments = path ++ entry.1.toList

theorem Keyword.standsBelow_of_subschemas {path : List String} {k : Keyword Schema}
    (h : k.subschemas = []) : k.StandsBelow path := by
  intro entry he
  rw [h] at he
  cases he

namespace Digest

open LoadM

/-- A schema behind an element that is none. -/
def hasLateObject : List Json → Bool
  | [] => false
  | value :: rest =>
    if Shape.of value = .object then hasLateObject rest
    else rest.any fun other => Shape.of other = .object

/-- The schemas that a keyword reads in a value are counted from another place on: a single one
as if it were in a list, and those of a union as if no names of types were between them. Both are
forms of the third draft. -/
def shifts (active : DraftSet) (kind : KeywordKind) (value : Json) : Bool :=
  active.contains .draft3 &&
    match value with
    | .object _ => kind = .extends
    | .array elements => (kind = .type || kind = .disallow) && hasLateObject elements
    | _ => false

/-! ## Indices -/

/-- The indices of the objects among elements, counted from an index. -/
def objectIndices (index : Nat) : List Json → List Nat
  | [] => []
  | value :: rest =>
    if Shape.of value = .object then index :: objectIndices (index + 1) rest
    else objectIndices (index + 1) rest

theorem le_of_mem_objectIndices {index i : Nat} {elements : List Json}
    (h : i ∈ objectIndices index elements) : index ≤ i := by
  induction elements generalizing index with
  | nil => cases h
  | cons value rest ih =>
    unfold objectIndices at h
    split at h
    · rcases List.mem_cons.mp h with rfl | h
      · exact le_rfl
      · exact (Nat.le_succ _).trans (ih h)
    · exact (Nat.le_succ _).trans (ih h)

theorem objectIndices_eq_nil_iff {index : Nat} {elements : List Json} :
    objectIndices index elements = [] ↔
      elements.any (fun other => decide (Shape.of other = .object)) = false := by
  induction elements generalizing index with
  | nil => simp [objectIndices]
  | cons value rest ih =>
    unfold objectIndices
    split
    · rename_i hv
      simp [hv]
    · rename_i hv
      rw [ih]
      simp [hv]

/-- The objects are counted as the elements are, exactly if none stands behind another element. -/
theorem objectIndices_eq_range'_iff {index : Nat} {elements : List Json} :
    objectIndices index elements = List.range' index (objectIndices index elements).length ↔
      hasLateObject elements = false := by
  induction elements generalizing index with
  | nil => simp [objectIndices, hasLateObject]
  | cons value rest ih =>
    unfold objectIndices hasLateObject
    split
    · rw [List.length_cons, List.range'_succ, List.cons_eq_cons, ih]
      simp
    · rw [← objectIndices_eq_nil_iff]
      constructor
      · intro h
        cases hi : objectIndices (index + 1) rest with
        | nil => rfl
        | cons first others =>
          rw [hi, List.length_cons, List.range'_succ] at h
          have hle := le_of_mem_objectIndices (hi ▸ List.mem_cons_self)
          rw [(List.cons.inj h).1] at hle
          omega
      · intro h
        rw [h]
        rfl

/-- The segments of a list say where its schemas stand if these are counted from zero. -/
theorem indexed_stand_iff {list : List Schema} {path : List String} {indices : List Nat}
    (h : list.map (fun s => s.location.path.segments) =
      indices.map fun i => path ++ [toString i]) :
    (∀ entry ∈ Keyword.indexed list,
        entry.2.location.path.segments = path ++ entry.1.toList) ↔
      indices = List.range' 0 indices.length := by
  have hlength : list.length = indices.length := by simpa using congrArg List.length h
  have hat : ∀ {n : Nat} {s : Schema} {i : Nat}, list[n]? = some s → indices[n]? = some i →
      s.location.path.segments = path ++ [toString i] := by
    intro n s i hs hi
    have hn := congrArg (·[n]?) h
    simpa [hs, hi] using hn
  constructor
  · intro hstand
    apply List.ext_getElem?
    intro n
    cases hi : indices[n]? with
    | none => simpa using hi
    | some i =>
      have hlt : n < indices.length := (List.getElem?_eq_some_iff.mp hi).1
      obtain ⟨s, hs⟩ : ∃ s, list[n]? = some s :=
        ⟨_, List.getElem?_eq_getElem (hlength ▸ hlt)⟩
      have hentry : (some (toString n), s) ∈ Keyword.indexed list :=
        List.mem_map.mpr ⟨(s, n), List.mem_zipIdx_iff_getElem?.mpr hs, rfl⟩
      have hsegments := (hat hs hi).symm.trans (hstand _ hentry)
      rw [List.getElem?_range' hlt]
      have heq := Pointer.toString_inj (List.singleton_inj.mp (List.append_cancel_left hsegments))
      simp [heq]
  · intro hindices entry he
    obtain ⟨⟨s, n⟩, hm, rfl⟩ := List.mem_map.mp he
    rw [List.mem_zipIdx_iff_getElem?] at hm
    have hlt : n < indices.length := hlength ▸ (List.getElem?_eq_some_iff.mp hm).1
    refine hat hm ?_
    rw [hindices, List.getElem?_range' hlt]
    simp

/-! ## Reading -/

variable {load : Loader} {context : OpenDocument} {s s' : Session} {location : Location}

/-- A loader whose nodes stand where they are asked for, and which has one for every object. -/
structure Seats (load : Loader) (context : OpenDocument) : Prop extends Loud load context where
  path : ∀ {location value s t s'}, Runs (load location value) s (.ok (some t)) s' →
    t.location.path = location.path
  object : ∀ {location value s s'}, s.current? = some context → Shape.of value = .object →
    ¬ Runs (load location value) s (.ok Option.none) s'

theorem schemas_stand (hl : Seats load context) {index : Nat} {elements : List Json}
    {list : List Schema} (h : Runs (schemas load location index elements) s (.ok (some list)) s') :
    list.map (fun t => t.location.path.segments) =
      (List.range' index list.length).map fun i => location.path.segments ++ [toString i] := by
  induction elements generalizing index s s' list with
  | nil =>
    cases (runs_pure.mp h).1
    rfl
  | cons value rest ih =>
    obtain ⟨found, s₁, hfirst, h⟩ := runs_bind_ok.mp h
    cases found with
    | none => cases (runs_pure.mp h).1
    | some t =>
      obtain ⟨others, s₂, hothers, h⟩ := runs_bind_ok.mp h
      obtain ⟨others, rfl, rfl⟩ :=
        Option.map_eq_some_iff.mp (Except.ok.inj (runs_pure.mp h).1).symm
      rw [List.map_cons, hl.path hfirst, ih hothers]
      rfl

theorem typeEntries_stand (hl : Seats load context) (hc : s.current? = some context) {index : Nat}
    {elements : List Json} {shapes : List Shape} {list : List Schema}
    (h : Runs (typeEntries load true (elementPlaces location index elements)) s
      (.ok (shapes, list)) s') :
    list.map (fun t => t.location.path.segments) =
      (objectIndices index elements).map fun i => location.path.segments ++ [toString i] := by
  induction elements generalizing index s s' shapes list with
  | nil =>
    cases (runs_pure.mp h).1
    rfl
  | cons value rest ih =>
    rw [elementPlaces_cons] at h
    unfold typeEntries at h
    unfold objectIndices
    split at h
    · rename_i hv
      have hobject : Shape.of value = .object := by simpa using hv
      obtain ⟨found, s₁, hfirst, h⟩ := runs_bind_ok.mp h
      obtain ⟨⟨shapes', others⟩, s₂, hothers, h⟩ := runs_bind_ok.mp h
      cases found with
      | none => exact absurd hfirst (hl.object hc hobject)
      | some t =>
        cases (runs_pure.mp h).1
        rw [if_pos hobject, Option.toList_some, List.singleton_append, List.map_cons,
          hl.path hfirst, ih (hl.current hc hfirst) hothers]
        rfl
    · rename_i hv
      have hother : Shape.of value ≠ .object := by simpa using hv
      rw [if_neg hother]
      split at h
      · obtain ⟨⟨shapes', others⟩, s₂, hothers, h⟩ := runs_bind_ok.mp h
        cases (runs_pure.mp h).1
        exact ih hc hothers
      · obtain ⟨_, s₁, hissue, h⟩ := runs_bind_ok.mp h
        obtain ⟨-, rfl⟩ := runs_malformed.mp hissue
        refine ih ?_ h
        exact hc

/-- Where no element is read as a schema, there are names of types only. -/
theorem typeEntries_plain {third : Bool} {entries : List (Location × Json)} {shapes : List Shape}
    {list : List Schema}
    (he : ∀ entry ∈ entries, third = true → Shape.of entry.2 ≠ .object)
    (h : Runs (typeEntries load third entries) s (.ok (shapes, list)) s') : list = [] := by
  induction entries generalizing s s' shapes list with
  | nil =>
    cases (runs_pure.mp h).1
    rfl
  | cons entry rest ih =>
    obtain ⟨location, value⟩ := entry
    have hrest := fun entry hm => he entry (List.mem_cons_of_mem _ hm)
    unfold typeEntries at h
    split at h
    · rename_i hv
      simp only [Bool.and_eq_true, decide_eq_true_eq] at hv
      exact absurd hv.2 (he _ List.mem_cons_self hv.1)
    · split at h
      · obtain ⟨⟨shapes', others⟩, s₂, hothers, h⟩ := runs_bind_ok.mp h
        cases (runs_pure.mp h).1
        exact ih hrest hothers
      · obtain ⟨_, s₁, _, h⟩ := runs_bind_ok.mp h
        exact ih hrest h

theorem schemaEntries_stand (hl : Seats load context) {site : Site}
    {members : List (String × Json)} {entries : List (String × Schema)}
    (h : Runs (schemaEntries load site members) s (.ok entries) s') :
    ∀ entry ∈ entries,
      entry.2.location.path.segments = site.location.path.segments ++ [entry.1] := by
  induction members generalizing s s' entries with
  | nil =>
    cases (runs_pure.mp h).1
    simp
  | cons member rest ih =>
    obtain ⟨name, value⟩ := member
    have hload : ∀ {f : Option Schema → LoadM (List (String × Schema))} {s s' : Session},
        f none = schemaEntries load site rest →
        (∀ t, f (some t) = do return (name, t) :: (← schemaEntries load site rest)) →
        Runs (load (site.location.child name) value >>= f) s (.ok entries) s' →
        ∀ entry ∈ entries,
          entry.2.location.path.segments = site.location.path.segments ++ [entry.1] := by
      intro f s s' hnone hsome h
      obtain ⟨found, s₁, hfirst, h⟩ := runs_bind_ok.mp h
      cases found with
      | none =>
        rw [hnone] at h
        exact ih h
      | some t =>
        rw [hsome] at h
        obtain ⟨others, s₂, hothers, h⟩ := runs_bind_ok.mp h
        cases (runs_pure.mp h).1
        refine List.forall_mem_cons.mpr ⟨?_, ih hothers⟩
        rw [hl.path hfirst]
        rfl
    unfold schemaEntries at h
    split at h
    · obtain ⟨_, s₁, _, h⟩ := runs_bind_ok.mp h
      exact ih h
    · dsimp only at h
      split at h
      · obtain ⟨_, s₁, _, h⟩ := runs_bind_ok.mp h
        exact hload rfl (fun _ => rfl) h
      · exact hload rfl (fun _ => rfl) h

theorem dependency_stands (hl : Seats load context) {name : String} {value : Json} {t : Schema}
    (h : Runs (dependency load location name value) s (.ok (some (.schema t))) s') :
    t.location.path = location.path := by
  unfold dependency at h
  split at h
  · obtain ⟨_, s₁, _, h⟩ := runs_bind_ok.mp h
    cases (runs_pure.mp h).1
  · cases (runs_pure.mp h).1
  · obtain ⟨found, s₁, hfound, h⟩ := runs_bind_ok.mp h
    obtain ⟨t', rfl, heq⟩ := Option.map_eq_some_iff.mp (Except.ok.inj (runs_pure.mp h).1).symm
    cases heq
    exact hl.path hfound
  · obtain ⟨found, s₁, hfound, h⟩ := runs_bind_ok.mp h
    obtain ⟨t', rfl, heq⟩ := Option.map_eq_some_iff.mp (Except.ok.inj (runs_pure.mp h).1).symm
    cases heq
    exact hl.path hfound
  · obtain ⟨_, s₁, _, h⟩ := runs_bind_ok.mp h
    cases (runs_pure.mp h).1

theorem dependencyEntries_stand (hl : Seats load context) {members : List (String × Json)}
    {entries : List (String × Dependency Schema)}
    (h : Runs (dependencyEntries load location members) s (.ok entries) s') :
    ∀ name t, (name, Dependency.schema t) ∈ entries →
      t.location.path.segments = location.path.segments ++ [name] := by
  induction members generalizing s s' entries with
  | nil =>
    cases (runs_pure.mp h).1
    simp
  | cons member rest ih =>
    obtain ⟨name, value⟩ := member
    obtain ⟨found, s₁, hfirst, h⟩ := runs_bind_ok.mp h
    cases found with
    | none => exact ih h
    | some d =>
      obtain ⟨others, s₂, hothers, h⟩ := runs_bind_ok.mp h
      cases (runs_pure.mp h).1
      intro name' t hm
      rcases List.mem_cons.mp hm with heq | hm
      · cases heq
        rw [dependency_stands hl hfirst]
        rfl
      · exact ih hothers name' t hm

/-! ## Keywords -/

variable {active : DraftSet} {builder : Builder} {site : Site} {value : Json} {k : Keyword Schema}

/-- Only lists and unions of schemas are counted from another place on. -/
theorem shifts_eq_false {entry : CatalogEntry} (he : entry ∈ Catalog.entries)
    (hlist : entry.reading ≠ .schemaList) (htypes : entry.reading ≠ .types) (active : DraftSet)
    (value : Json) : shifts active entry.kind value = false := by
  have hkinds : ∀ entry ∈ Catalog.entries, entry.reading ≠ .schemaList → entry.reading ≠ .types →
      entry.kind ≠ .extends ∧ entry.kind ≠ .type ∧ entry.kind ≠ .disallow := by
    decide +kernel
  obtain ⟨hextends, htype, hdisallow⟩ := hkinds entry he hlist htypes
  cases value with
  | object members => simp [shifts, hextends]
  | array elements => simp [shifts, htype, hdisallow]
  | null | bool | number | string => simp [shifts]

theorem not_object_of_shape {value : Json} (h : ∀ members, value ≠ .object members) :
    Shape.of value ≠ .object := by
  cases value with
  | object members => exact absurd rfl (h members)
  | number n =>
    cases n with
    | integer i => simp [Shape.of, Shape.ofNumber]
    | float x =>
      rw [Shape.of, Shape.ofNumber]
      split <;> simp
  | null | bool | string | array => simp [Shape.of]

theorem stands_of_map (hl : Seats load context) {form : Schema → Keyword Schema}
    (hform : ∀ t, (form t).subschemas = [(none, t)])
    (h : Runs (do return (← load location value).map form) s (.ok (some k)) s') :
    k.StandsBelow location.path.segments := by
  obtain ⟨found, s₁, hfound, h⟩ := runs_bind_ok.mp h
  obtain ⟨t, rfl, rfl⟩ := Option.map_eq_some_iff.mp (Except.ok.inj (runs_pure.mp h).1).symm
  intro entry he
  rw [hform, List.mem_singleton] at he
  rw [he, hl.path hfound]
  simp

theorem stands_of_schemas (hl : Seats load context) {elements : List Json}
    {form : List Schema → Keyword Schema} (hform : ∀ list, (form list).subschemas = Keyword.indexed list)
    (h : Runs (do return (← schemas load location 0 elements).map form) s (.ok (some k)) s') :
    k.StandsBelow location.path.segments := by
  obtain ⟨found, s₁, hfound, h⟩ := runs_bind_ok.mp h
  obtain ⟨list, rfl, rfl⟩ := Option.map_eq_some_iff.mp (Except.ok.inj (runs_pure.mp h).1).symm
  rw [Keyword.StandsBelow, hform, indexed_stand_iff (schemas_stand hl hfound)]
  simp

theorem schemaList_stands_iff (hl : Seats load context) (he : site.entry ∈ Catalog.entries)
    (hdrafts : site.entry.drafts.intersects active = true)
    (hr : site.entry.reading = .schemaList)
    (ha : site.entry.expects.accepts (Shape.of site.value) = true)
    (h : Runs (schemaList load site) s (.ok (some k)) s') :
    k.StandsBelow site.location.path.segments ↔
      shifts active site.entry.kind site.value = false := by
  have hkinds : ∀ entry ∈ Catalog.entries, entry.reading = .schemaList →
      entry.kind ≠ .type ∧ entry.kind ≠ .disallow ∧ (entry.expects.accepts .object = true →
        entry.kind = .extends ∧ entry.drafts.drafts = [.draft3]) := by
    decide +kernel
  obtain ⟨htype, hdisallow, hextends⟩ := hkinds site.entry he hr
  unfold schemaList at h
  split at h
  · rename_i elements hv
    refine iff_of_true (stands_of_schemas hl (fun _ => rfl) h) ?_
    simp [hv, shifts, htype, hdisallow]
  · rename_i members hv
    rw [hv] at ha
    obtain ⟨found, s₁, hfound, h⟩ := runs_bind_ok.mp h
    obtain ⟨t, rfl, rfl⟩ := Option.map_eq_some_iff.mp (Except.ok.inj (runs_pure.mp h).1).symm
    obtain ⟨hkind, hthird⟩ := hextends ha
    rw [DraftSet.intersects, hthird, List.any_cons, List.any_nil, Bool.or_false] at hdrafts
    refine iff_of_false ?_ (by simp [hv, shifts, hkind, hdrafts])
    intro hstand
    have hsegments := hstand (some "0", t) List.mem_cons_self
    rw [hl.path hfound] at hsegments
    simpa using congrArg List.length hsegments
  · cases (runs_pure.mp h).1

theorem types_stand_iff (hl : Seats load context) (hc : s.current? = some context)
    (he : site.entry ∈ Catalog.entries) (hr : site.entry.reading = .types)
    (ha : site.entry.expects.accepts (Shape.of site.value) = true)
    (h : Runs (types load active site) s (.ok (some k)) s') :
    k.StandsBelow site.location.path.segments ↔
      shifts active site.entry.kind site.value = false := by
  have hkinds : ∀ entry ∈ Catalog.entries, entry.reading = .types →
      (entry.kind = .type ∨ entry.kind = .disallow) ∧ entry.expects.accepts .object = false := by
    decide +kernel
  obtain ⟨hkind, hobject⟩ := hkinds site.entry he hr
  unfold types at h
  dsimp only at h
  obtain ⟨⟨shapes, list⟩, s₁, hread, h⟩ := runs_bind_ok.mp h
  have hk : k.subschemas = Keyword.indexed list := by
    rw [Option.some.inj (Except.ok.inj (runs_pure.mp h).1)]
    split
    · rename_i hempty
      have hlist : list = [] := List.isEmpty_iff.mp hempty
      rw [hlist]
      rfl
    · rfl
  have hnone : list = [] → k.StandsBelow site.location.path.segments := by
    rintro rfl
    exact Keyword.standsBelow_of_subschemas hk
  cases hv : site.value with
  | array elements =>
    rw [hv] at hread
    cases hthird : active.contains .draft3 with
    | false =>
      rw [hthird] at hread
      exact iff_of_true (hnone (typeEntries_plain (by simp) hread)) (by simp [shifts, hthird])
    | true =>
      rw [hthird] at hread
      have hshifts : shifts active site.entry.kind (.array elements) = hasLateObject elements := by
        rcases hkind with hkind | hkind <;> simp [shifts, hkind, hthird]
      rw [hshifts, ← objectIndices_eq_range'_iff, Keyword.StandsBelow, hk,
        indexed_stand_iff (typeEntries_stand hl hc hread)]
  | object members =>
    rw [hv, show Shape.of (.object members) = .object from rfl, hobject] at ha
    cases ha
  | null | bool | number | string =>
    rw [hv] at hread
    refine iff_of_true (hnone (typeEntries_plain ?_ hread)) (by simp [shifts])
    intro entry hm _ hshape
    rw [List.mem_singleton.mp hm] at hshape
    exact not_object_of_shape (by simp) hshape

theorem subschemas_eq_nil {reading : Reading} (hr : reading ∈ k.readings)
    (hnone : holdsSchemas reading = false) : k.subschemas = [] := by
  cases k with
  | schema | schemaList | schemaMap | items | tuple | dependencies | types | union =>
    rw [List.mem_singleton.mp hr] at hnone
    cases hnone
  | _ => rfl

/-- All schemas but those of lists and unions stand at their segments. -/
theorem stands_of_keyword (hl : Seats load context) (hlist : site.entry.reading ≠ .schemaList)
    (htypes : site.entry.reading ≠ .types)
    (h : Runs (keyword load active builder site) s (.ok (some k)) s') :
    k.StandsBelow site.location.path.segments := by
  have hnone : holdsSchemas site.entry.reading = false →
      k.StandsBelow site.location.path.segments := fun hholds =>
    Keyword.standsBelow_of_subschemas (subschemas_eq_nil (reading_of_keyword h) hholds)
  unfold keyword at h
  cases hr : site.entry.reading with
  | schemaList => exact absurd hr hlist
  | types => exact absurd hr htypes
  | schema =>
    cases hv : site.value with
    | bool b =>
      simp only [hr, hv] at h
      split at h
      · obtain ⟨t, s₁, ht, h⟩ := runs_bind_ok.mp h
        cases (runs_pure.mp h).1
        cases (runs_onStore.mp ht).1
        intro entry he
        rw [List.mem_singleton.mp he]
        exact (List.append_nil _).symm
      · exact stands_of_map hl (fun _ => rfl) h
    | null | number | string | array | object =>
      simp only [hr, hv] at h
      exact stands_of_map hl (fun _ => rfl) h
  | schemaMap =>
    cases hv : site.value with
    | object members =>
      simp only [hr, hv] at h
      obtain ⟨entries, s₁, hentries, h⟩ := runs_bind_ok.mp h
      cases (runs_pure.mp h).1
      intro entry he
      obtain ⟨⟨name, t⟩, hm, rfl⟩ := List.mem_map.mp he
      exact schemaEntries_stand hl hentries _ hm
    | null | bool | number | string | array =>
      simp only [hr, hv] at h
      cases (runs_pure.mp h).1
  | items =>
    simp only [hr] at h
    unfold items at h
    split at h
    · exact stands_of_schemas hl (fun _ => rfl) h
    · exact stands_of_map hl (fun _ => rfl) h
  | dependencies =>
    cases hv : site.value with
    | object members =>
      simp only [hr, hv] at h
      obtain ⟨entries, s₁, hentries, h⟩ := runs_bind_ok.mp h
      cases (runs_pure.mp h).1
      intro entry he
      obtain ⟨⟨name, d⟩, hm, hd⟩ := List.mem_filterMap.mp he
      cases d with
      | schema t =>
        cases hd
        exact dependencyEntries_stand hl hentries name t hm
      | properties names => cases hd
    | null | bool | number | string | array =>
      simp only [hr, hv] at h
      cases (runs_pure.mp h).1
  | _ => exact hnone (by rw [hr]; rfl)

/-- The schemas of a keyword stand at their segments below it, unless they are counted from
another place on. -/
theorem keyword_stands_iff (hl : Seats load context) (hc : s.current? = some context)
    (he : site.entry ∈ Catalog.entries)
    (hdrafts : site.entry.drafts.intersects active = true)
    (ha : site.entry.expects.accepts (Shape.of site.value) = true)
    (h : Runs (keyword load active builder site) s (.ok (some k)) s') :
    k.StandsBelow site.location.path.segments ↔
      shifts active site.entry.kind site.value = false := by
  by_cases hlist : site.entry.reading = .schemaList
  · unfold keyword at h
    rw [hlist] at h
    exact schemaList_stands_iff hl he hdrafts hlist ha h
  · by_cases htypes : site.entry.reading = .types
    · unfold keyword at h
      rw [htypes] at h
      exact types_stand_iff hl hc he htypes ha h
    · exact iff_of_true (stands_of_keyword hl hlist htypes h)
        (shifts_eq_false he hlist htypes active site.value)

/-! ## Members -/

variable {object list : List (String × Json)} {key : String} {after : Builder}
variable {kind : KeywordKind}

/-- A keyword that a candidate reads in a member of an object, inside of a document. -/
def Reads (load : Loader) (context : OpenDocument) (active : DraftSet) (location : Location)
    (object : List (String × Json)) (kind : KeywordKind) (k : Keyword Schema) : Prop :=
  ∃ key value, (key, value) ∈ object ∧ ∃ entry ∈ Catalog.applicable key active,
    entry.kind = kind ∧ entry.expects.accepts (Shape.of value) = true ∧
      ∃ builder s s', s.current? = some context ∧
        Runs (keyword load active builder ⟨entry, value, object, location.child key⟩) s
          (.ok (some k)) s'

/-- A part of the reading of keywords stays in its document. -/
theorem Gathers.current {α : Type} {draft : Draft} {asked : Location → Json → Prop}
    {intact : Prop} {x : LoadM α} {base : List Schema} {held : α → List Schema}
    {lost : α → Prop} (hx : Gathers load draft asked intact x base held lost)
    (hl : Loud load context) (hc : s.current? = some context) {a : α} (h : Runs x s (.ok a) s') :
    s'.current? = some context := by
  obtain ⟨nodes, hvisits, -⟩ := hx.ok h
  exact (hvisits.loud hl hc).1

theorem keyword_current (hl : Loud load context) (hc : s.current? = some context)
    {found : Option (Keyword Schema)}
    (h : Runs (keyword load active builder site) s (.ok found) s') :
    s'.current? = some context := by
  have hg : Gathers load builder.draft (fun _ _ => True) False
      (keyword load active builder site) []
      (fun found => [] ++ found.toList.flatMap Keyword.nodes) (fun _ => False) :=
    keyword_gathers rfl fun _ _ => trivial
  exact hg.current hl hc h

theorem member_current (hl : Loud load context) (hc : s.current? = some context)
    (h : Runs (member load active object key value builder) s (.ok after) s') :
    s'.current? = some context := by
  have hg : Gathers load builder.draft (fun _ _ => True) False
      (member load active object key value builder) builder.nodes Builder.nodes
      (fun _ => False) :=
    member_gathers rfl (fun _ _ => trivial) False.elim
  exact hg.current hl hc h

theorem reads_of_tryCandidates (hl : Loud load context) (hc : s.current? = some context)
    (hm : (key, value) ∈ object) {candidates : List CatalogEntry}
    (hcandidates : ∀ entry ∈ candidates, entry ∈ Catalog.applicable key active ∧
      entry.expects.accepts (Shape.of value) = true)
    (h : Runs (tryCandidates load active object (location.child key) value builder candidates) s
      (.ok after) s') :
    ∀ kind k, (kind, k) ∈ after.keywords → (kind, k) ∈ builder.keywords ∨
      Reads load context active location object kind k := by
  induction candidates generalizing s with
  | nil =>
    cases (runs_pure.mp h).1
    exact fun _ _ => Or.inl
  | cons entry rest ih =>
    obtain ⟨found, s₁, hk, h⟩ := runs_bind_ok.mp h
    cases found with
    | none =>
      exact ih (keyword_current hl hc hk)
        (fun entry he => hcandidates entry (List.mem_cons_of_mem _ he)) h
    | some k =>
      obtain ⟨hentry, haccepts⟩ := hcandidates entry List.mem_cons_self
      cases (runs_pure.mp h).1
      intro kind other hother
      rcases Entries.mem_insert hother with heq | hold
      · cases heq
        exact Or.inr ⟨key, value, hm, entry, hentry, rfl, haccepts, builder, s, s₁, hc, hk⟩
      · exact Or.inl hold

theorem reads_of_member (hl : Loud load context) (hc : s.current? = some context)
    (hm : (key, value) ∈ object)
    (h : Runs (member load active object key value builder) s (.ok after) s') :
    ∀ kind k, (kind, k) ∈ after.keywords → (kind, k) ∈ builder.keywords ∨
      Reads load context active builder.location object kind k := by
  unfold member at h
  dsimp only at h
  split at h
  · obtain ⟨_, _, _, h⟩ := runs_bind_ok.mp h
    split at h
    · obtain ⟨_, _, _, h⟩ := runs_bind_ok.mp h
      cases (runs_pure.mp h).1
      exact fun _ _ => Or.inl
    · cases (runs_pure.mp h).1
      exact fun _ _ => Or.inl
  · split at h
    · obtain ⟨_, _, _, h⟩ := runs_bind_ok.mp h
      cases (runs_pure.mp h).1
      exact fun _ _ => Or.inl
    · exact reads_of_tryCandidates hl hc hm (fun _ he => List.mem_filter.mp he) h

/-- Every keyword that the members of an object add to a builder is read in one of them. -/
theorem reads_of_members (hl : Loud load context) (hc : s.current? = some context)
    (hlist : list ⊆ object)
    (h : Runs (members load active object list builder) s (.ok after) s') :
    ∀ kind k, (kind, k) ∈ after.keywords → (kind, k) ∈ builder.keywords ∨
      Reads load context active builder.location object kind k := by
  induction list generalizing builder s with
  | nil =>
    cases (runs_pure.mp h).1
    exact fun _ _ => Or.inl
  | cons entry rest ih =>
    obtain ⟨key, value⟩ := entry
    obtain ⟨next, s₁, hmember, h⟩ := runs_bind_ok.mp h
    obtain ⟨hm, hrest⟩ := List.cons_subset.mp hlist
    intro kind k hk
    rcases ih (member_current hl hc hmember) hrest h kind k hk with hold | hread
    · exact reads_of_member hl hc hm hmember kind k hold
    · rw [(member_keeps hmember).location] at hread
      exact Or.inr hread

/-- The schemas of a keyword stand at their segments below the key of its kind, unless they are
counted from another place on. -/
theorem Reads.stands_iff (hl : Seats load context)
    (h : Reads load context active location object kind k) (hsome : k.subschemas ≠ []) :
    ∃ value, (kind.key, value) ∈ object ∧
      (k.StandsBelow (location.path.segments ++ [kind.key]) ↔
        shifts active kind value = false) := by
  have hkeys : ∀ entry ∈ Catalog.entries, holdsSchemas entry.reading = true →
      entry.key = entry.kind.key := by
    decide +kernel
  obtain ⟨key, value, hm, entry, happlicable, rfl, haccepts, builder, s, s', hc, hk⟩ := h
  obtain ⟨hentry, rfl⟩ := mem_applicable happlicable
  have hdrafts : entry.drafts.intersects active = true := (List.mem_filter.mp happlicable).2
  have hholds : holdsSchemas entry.reading = true :=
    Bool.of_not_eq_false fun hnone => hsome (subschemas_eq_nil (reading_of_keyword hk) hnone)
  rw [← hkeys entry hentry hholds]
  exact ⟨value, hm, keyword_stands_iff hl hc hentry hdrafts haccepts hk⟩

end Digest
end SchemaAtlas
