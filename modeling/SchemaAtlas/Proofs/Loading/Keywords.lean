import SchemaAtlas.Proofs.Loading.Nested

/-!
# Reading keywords as visits

Every function that reads a part of an object visits nested places only, and what it gives
holds the nodes of these visits. `Digest.members_gathers` puts the functions together for a
whole object; keys that occur once cannot displace each other's schemas, since two keys of
one kind never hold any.
-/

namespace SchemaAtlas
namespace Digest

open LoadM

variable {load : Loader} {draft : Draft} {asked : Location → Json → Prop}

/-! ## Schemas -/

theorem schemas_gathers {intact : Prop} {base : List Schema} {location : Location}
    {index : Nat} {elements : List Json}
    (ha : ∀ place ∈ elementPlaces location index elements, asked place.1 place.2) :
    Gathers load draft asked intact (schemas load location index elements) base
      (fun found => base ++ found.toList.flatten) (· = none) := by
  induction elements generalizing intact base index with
  | nil => exact gathers_pure (by simp) (by simp)
  | cons value rest ih =>
    rw [elementPlaces_cons] at ha
    apply Gathers.bind (gathers_load (ha _ List.mem_cons_self))
    rintro (_ | schema)
    · exact gathers_pure (by simp) (by simp)
    · apply Gathers.bind (ih fun place hp => ha place (List.mem_cons_of_mem _ hp))
      rintro (_ | list)
      · exact gathers_pure (by simp) (by simp)
      · exact gathers_pure (by simp) (by simp)

/-- A list of schemas that becomes a keyword as a whole or not at all. -/
theorem schemas_map_gathers {intact : Prop} {base : List Schema} {location : Location}
    {elements : List Json} (form : List Schema → Keyword Schema)
    (hform : ∀ list, (form list).nodes = list)
    (ha : ∀ place ∈ elementPlaces location 0 elements, asked place.1 place.2) :
    Gathers load draft asked intact
      (do return (← schemas load location 0 elements).map form) base
      (fun found => base ++ found.toList.flatMap Keyword.nodes) (fun _ => False) := by
  apply Gathers.bind (schemas_gathers ha)
  rintro (_ | list)
  · exact gathers_pure (by simp) (by simp)
  · exact gathers_pure (by simp [hform]) (by simp [hform])

/-- One schema that becomes a keyword. -/
theorem load_map_gathers {intact : Prop} {base : List Schema} {location : Location}
    {value : Json} (form : Schema → Keyword Schema) (hform : ∀ s, (form s).nodes = [s])
    (ha : asked location value) :
    Gathers load draft asked intact (do return (← load location value).map form) base
      (fun found => base ++ found.toList.flatMap Keyword.nodes) (fun _ => False) := by
  apply Gathers.bind (gathers_load ha)
  rintro (_ | s)
  · exact gathers_pure (by simp) (by simp)
  · exact gathers_pure (by simp [hform]) (by simp [hform])

/-- A keyword without nested schemas. -/
theorem pure_gathers {intact : Prop} {base : List Schema} (k : Option (Keyword Schema))
    (hk : ∀ keyword, k = some keyword → keyword.nodes = []) :
    Gathers load draft asked intact (pure k) base
      (fun found => base ++ found.toList.flatMap Keyword.nodes) (fun _ => False) := by
  cases k with
  | none => exact gathers_pure (by simp) (by simp)
  | some keyword => exact gathers_pure (by simp [hk]) (by simp [hk])

theorem schemaList_gathers {intact : Prop} {base : List Schema} {active : DraftSet}
    {site : Site}
    (ha : ∀ place ∈ nestedIn active .schemaList site.location site.value,
      asked place.1 place.2) :
    Gathers load draft asked intact (schemaList load site) base
      (fun found => base ++ found.toList.flatMap Keyword.nodes) (fun _ => False) := by
  unfold schemaList
  cases hv : site.value with
  | array elements =>
    rw [hv] at ha
    exact schemas_map_gathers .schemaList (by simp [Keyword.nodes, Keyword.subschemas]) ha
  | object members =>
    rw [hv] at ha
    refine load_map_gathers (fun s => .schemaList [s]) ?_ (ha _ List.mem_cons_self)
    simp [Keyword.nodes, Keyword.subschemas]
  | null | bool | number | string => exact pure_gathers none (by simp)

theorem items_gathers {intact : Prop} {base : List Schema} {active : DraftSet} {site : Site}
    (ha : ∀ place ∈ nestedIn active .items site.location site.value, asked place.1 place.2) :
    Gathers load draft asked intact (items load site) base
      (fun found => base ++ found.toList.flatMap Keyword.nodes) (fun _ => False) := by
  unfold items
  cases hv : site.value with
  | array elements =>
    rw [hv] at ha
    exact schemas_map_gathers .tuple (by simp [Keyword.nodes, Keyword.subschemas]) ha
  | object | bool | null | number | string =>
    rw [hv] at ha
    refine load_map_gathers .items ?_ (ha _ List.mem_cons_self)
    simp [Keyword.nodes, Keyword.subschemas]

theorem checkPattern_gathers {intact : Prop} {base : List Schema} {location : Location}
    {pattern : String} :
    Gathers load draft asked intact (checkPattern location pattern) base (fun _ => base)
      (fun _ => False) := by
  unfold checkPattern
  split
  · exact gathers_pure (by simp) (by simp)
  · exact gathers_issue rfl

theorem schemaEntries_gathers {intact : Prop} {base : List Schema} {site : Site}
    {members : List (String × Json)}
    (ha : ∀ place ∈ memberPlaces site.location (members.filter (! ·.1.isEmpty)),
      asked place.1 place.2) :
    Gathers load draft asked intact (schemaEntries load site members) base
      (fun entries => base ++ entries.map Prod.snd) (fun _ => False) := by
  induction members generalizing intact base with
  | nil => exact gathers_pure (by simp) (by simp)
  | cons member rest ih =>
    obtain ⟨name, value⟩ := member
    unfold schemaEntries
    by_cases hn : name.isEmpty
    · simp only [hn, if_true]
      apply Gathers.bind (gathers_malformed rfl)
      intro _
      apply ih
      simpa [hn] using ha
    · simp only [hn, Bool.false_eq_true, if_false]
      have hhere : asked (site.location.child name) value :=
        ha (site.location.child name, value) (by simp [memberPlaces, hn])
      have hrest : ∀ place ∈ memberPlaces site.location (rest.filter (! ·.1.isEmpty)),
          asked place.1 place.2 :=
        fun place hp => ha place (by
          simp only [memberPlaces, List.filter_cons, hn] at hp ⊢
          exact List.mem_cons_of_mem _ hp)
      have hload : ∀ {q : Prop} {f : Option Schema → LoadM (List (String × Schema))},
          f none = schemaEntries load site rest →
          (∀ schema, f (some schema) = do
            return (name, schema) :: (← schemaEntries load site rest)) →
          Gathers load draft asked q (load (site.location.child name) value >>= f) base
            (fun entries => base ++ entries.map Prod.snd) (fun _ => False) := by
        intro q f hnone hsome
        apply Gathers.bind (gathers_load hhere)
        rintro (_ | schema)
        · rw [hnone]
          simpa using ih hrest
        · rw [hsome]
          apply Gathers.bind (ih hrest)
          intro entries
          exact gathers_pure (by simp) (by simp)
      split
      · exact Gathers.bind checkPattern_gathers fun _ => hload rfl fun _ => rfl
      · exact hload rfl fun _ => rfl

theorem names_gathers {intact : Prop} {base : List Schema} {location : Location}
    {index : Nat} {elements : List Json} :
    Gathers load draft asked intact (names location index elements) base (fun _ => base)
      (fun _ => False) := by
  induction elements generalizing intact index with
  | nil => exact gathers_pure (by simp) (by simp)
  | cons value rest ih =>
    unfold names
    cases value with
    | string name =>
      exact Gathers.bind ih fun _ => gathers_pure (by simp) (by simp)
    | null | bool | number | array | object =>
      exact Gathers.bind (gathers_malformed rfl) fun _ => ih

/-- The schema of a dependency. -/
def dependencyNodes (d : Dependency Schema) : List Schema :=
  match d with
  | .schema s => [s]
  | .properties _ => []

theorem dependency_gathers {intact : Prop} {base : List Schema} {location : Location}
    {name : String} {value : Json}
    (ha : isSchemaDependency value → asked location value) :
    Gathers load draft asked intact (dependency load location name value) base
      (fun found => base ++ found.toList.flatMap dependencyNodes) (fun _ => False) := by
  unfold dependency
  cases value with
  | array elements =>
    exact Gathers.bind names_gathers fun _ =>
      gathers_pure (by simp [dependencyNodes]) (by simp [dependencyNodes])
  | string property => exact gathers_pure (by simp [dependencyNodes]) (by simp [dependencyNodes])
  | object | bool =>
    apply Gathers.bind (gathers_load (ha rfl))
    rintro (_ | s)
    · exact gathers_pure (by simp) (by simp)
    · exact gathers_pure (by simp [dependencyNodes]) (by simp [dependencyNodes])
  | null | number =>
    exact Gathers.bind (gathers_malformed rfl) fun _ => gathers_pure (by simp) (by simp)

theorem dependencyEntries_gathers {intact : Prop} {base : List Schema} {location : Location}
    {members : List (String × Json)}
    (ha : ∀ place ∈ memberPlaces location
      (members.filter fun entry => isSchemaDependency entry.2), asked place.1 place.2) :
    Gathers load draft asked intact (dependencyEntries load location members) base
      (fun entries => base ++ entries.flatMap fun entry => dependencyNodes entry.2)
      (fun _ => False) := by
  induction members generalizing intact base with
  | nil => exact gathers_pure (by simp) (by simp)
  | cons member rest ih =>
    obtain ⟨name, value⟩ := member
    unfold dependencyEntries
    have hhere : isSchemaDependency value → asked (location.child name) value :=
      fun hv => ha (location.child name, value) (by simp [memberPlaces, hv])
    have hrest : ∀ place ∈ memberPlaces location
        (rest.filter fun entry => isSchemaDependency entry.2), asked place.1 place.2 := by
      intro place hp
      apply ha place
      simp only [memberPlaces, List.filter_cons] at hp ⊢
      split
      · exact List.mem_cons_of_mem _ hp
      · exact hp
    apply Gathers.bind (dependency_gathers hhere)
    rintro (_ | d)
    · simpa using ih hrest
    · apply Gathers.bind (ih hrest)
      intro entries
      exact gathers_pure (by simp) (by simp)

theorem typeEntries_gathers {intact : Prop} {base : List Schema} {thirdDraft : Bool}
    {entries : List (Location × Json)}
    (ha : ∀ place ∈ entries, thirdDraft → Shape.of place.2 = .object →
      asked place.1 place.2) :
    Gathers load draft asked intact (typeEntries load thirdDraft entries) base
      (fun found => base ++ found.2) (fun _ => False) := by
  induction entries generalizing intact base with
  | nil => exact gathers_pure (by simp) (by simp)
  | cons place rest ih =>
    obtain ⟨location, value⟩ := place
    have hrest : ∀ place ∈ rest, thirdDraft → Shape.of place.2 = .object →
        asked place.1 place.2 := fun place hp => ha place (List.mem_cons_of_mem _ hp)
    unfold typeEntries
    split
    · rename_i hv
      simp only [Bool.and_eq_true, decide_eq_true_eq] at hv
      apply Gathers.bind (gathers_load (ha (location, value) List.mem_cons_self hv.1 hv.2))
      intro schema
      apply Gathers.bind (ih hrest)
      intro found
      exact gathers_pure (by simp) (by simp)
    · split
      · exact Gathers.bind (ih hrest) fun _ => gathers_pure (by simp) (by simp)
      · exact Gathers.bind (gathers_malformed rfl) fun _ => ih hrest

theorem types_gathers {intact : Prop} {base : List Schema} {active : DraftSet} {site : Site}
    (ha : ∀ place ∈ nestedIn active .types site.location site.value, asked place.1 place.2) :
    Gathers load draft asked intact (types load active site) base
      (fun found => base ++ found.toList.flatMap Keyword.nodes) (fun _ => False) := by
  unfold types
  refine Gathers.bind (typeEntries_gathers ?_) ?_
  · intro place hp hthird hshape
    apply ha
    cases hv : site.value with
    | array elements =>
      rw [hv] at hp
      simp only [nestedIn, hthird, if_true]
      exact List.mem_filter.mpr ⟨hp, by simpa using hshape⟩
    | null | bool | number | string | object =>
      rw [hv] at hp
      have hplace := List.mem_singleton.mp hp
      subst hplace
      simp only at hshape
      simp [nestedIn, hthird, hshape]
  · rintro ⟨shapes, _ | ⟨s, rest⟩⟩
    · apply gathers_pure <;> simp [Keyword.nodes, Keyword.subschemas]
    · apply gathers_pure <;> simp [Keyword.nodes, Keyword.subschemas]

/-! ## Plain values -/

theorem uriText_gathers {intact : Prop} {base : List Schema} {site : Site} {text : String} :
    Gathers load draft asked intact (uriText site text) base (fun k => base ++ k.nodes)
      (fun _ => False) := by
  have hend {q : Prop} : Gathers load draft asked q (pure (Keyword.uri text)) base
      (fun k : Keyword Schema => base ++ k.nodes) (fun _ => False) := by
    apply gathers_pure <;> simp [Keyword.nodes, Keyword.subschemas]
  unfold uriText
  dsimp only
  split
  · exact hend
  · exact Gathers.bind (gathers_malformed (by split <;> rfl)) fun _ => hend

theorem positiveNumber_gathers {intact : Prop} {base : List Schema} {site : Site}
    {n : Number} :
    Gathers load draft asked intact (positiveNumber site n) base
      (fun found => base ++ found.toList.flatMap Keyword.nodes) (fun _ => False) := by
  unfold positiveNumber
  split
  · exact pure_gathers _ (by simp [Keyword.nodes, Keyword.subschemas])
  · exact Gathers.bind (gathers_malformed rfl) fun _ => pure_gathers none (by simp)

theorem count_gathers {intact : Prop} {base : List Schema} {site : Site} {n : Number} :
    Gathers load draft asked intact (count site n) base
      (fun found => base ++ found.toList.flatMap Keyword.nodes) (fun _ => False) := by
  unfold count
  split
  · exact pure_gathers _ (by simp [Keyword.nodes, Keyword.subschemas])
  · exact Gathers.bind (gathers_malformed rfl) fun _ => pure_gathers none (by simp)

theorem limitFlag_gathers {intact : Prop} {base : List Schema} {site : Site} :
    Gathers load draft asked intact (limitFlag site) base (fun _ => base)
      (fun _ => False) := by
  unfold limitFlag
  dsimp only
  split
  · apply gathers_pure <;> simp
  · exact gathers_malformed rfl

/-! ## Objects -/

/-- A boolean in a place where every draft has one becomes a node at once. -/
theorem addBoolean_gathers {intact : Prop} {base : List Schema} {location : Location}
    {b : Bool} (ha : asked location (.bool b)) :
    Gathers load draft asked intact
      (onStore fun store => store.add location draft (.boolean b)) base
      (fun s => base ++ [s]) (fun _ => False) := by
  constructor
  · intro s a s' h
    obtain ⟨ha', rfl⟩ := runs_onStore.mp h
    cases ha'
    exact ⟨_, .boolean (.start s) ha, by simp, fun _ _ => by simp⟩
  · intro s e s' h
    cases (runs_onStore.mp h).1

theorem keyword_gathers {intact : Prop} {base : List Schema} {active : DraftSet}
    {builder : Builder} {site : Site} (hd : builder.draft = draft)
    (ha : ∀ place ∈ nestedIn active site.entry.reading site.location site.value,
      asked place.1 place.2) :
    Gathers load draft asked intact (keyword load active builder site) base
      (fun found => base ++ found.toList.flatMap Keyword.nodes) (fun _ => False) := by
  have hschema (hr : site.entry.reading = .schema) :
      Gathers load draft asked intact
        (do return (← load site.location site.value).map Keyword.schema) base
        (fun found => base ++ found.toList.flatMap Keyword.nodes) (fun _ => False) := by
    rw [hr] at ha
    refine load_map_gathers .schema ?_ (ha _ List.mem_cons_self)
    simp [Keyword.nodes, Keyword.subschemas]
  unfold keyword
  split
  · rename_i b hr hv
    split
    · subst hd
      have hb : asked site.location (.bool b) := ha (site.location, .bool b) (by simp [hr, hv, nestedIn])
      apply Gathers.bind (addBoolean_gathers hb)
      intro schema
      apply gathers_pure <;> simp [Keyword.nodes, Keyword.subschemas]
    · exact hschema hr
  · rename_i hr _
    exact hschema hr
  · rename_i hr
    rw [hr] at ha
    exact schemaList_gathers ha
  · rename_i members hr hv
    rw [hr, hv] at ha
    apply Gathers.bind (schemaEntries_gathers ha)
    intro entries
    apply gathers_pure <;> simp [Keyword.nodes, Keyword.subschemas, Function.comp_def]
  · rename_i hr
    rw [hr] at ha
    exact items_gathers ha
  · rename_i members hr hv
    rw [hr, hv] at ha
    apply Gathers.bind (dependencyEntries_gathers ha)
    intro entries
    have hnodes : (Keyword.dependencies entries).nodes =
        entries.flatMap fun entry => dependencyNodes entry.2 := by
      simp only [Keyword.nodes, Keyword.subschemas]
      induction entries with
      | nil => rfl
      | cons entry rest ih =>
        obtain ⟨name, d⟩ := entry
        cases d <;> simp [dependencyNodes, ih]
    apply gathers_pure <;> simp [hnodes]
  · exact pure_gathers _ (by simp [Keyword.nodes, Keyword.subschemas])
  · exact Gathers.bind checkPattern_gathers fun _ =>
      pure_gathers _ (by simp [Keyword.nodes, Keyword.subschemas])
  · apply Gathers.bind uriText_gathers
    intro k
    apply gathers_pure <;> simp
  · exact positiveNumber_gathers
  · exact count_gathers
  · exact pure_gathers _ (by simp [Keyword.nodes, Keyword.subschemas])
  · exact Gathers.bind names_gathers fun _ =>
      pure_gathers _ (by simp [Keyword.nodes, Keyword.subschemas])
  · rename_i hr
    exact types_gathers (hr ▸ ha)
  · exact pure_gathers _ (by simp [Keyword.nodes, Keyword.subschemas])
  · exact Gathers.bind limitFlag_gathers fun _ => pure_gathers none (by simp)
  · exact pure_gathers _ (by simp [Keyword.nodes, Keyword.subschemas])
  · exact pure_gathers _ (by simp [Keyword.nodes, Keyword.subschemas])
  · exact pure_gathers none (by simp)

/-- Whether keywords that are read like this may hold schemas. -/
def holdsSchemas : Reading → Bool
  | .schema | .schemaList | .schemaMap | .items | .dependencies | .types => true
  | _ => false

theorem mem_insertByDraft {entry other : CatalogEntry} {list : List CatalogEntry}
    (h : other ∈ Catalog.insertByDraft entry list) : other = entry ∨ other ∈ list := by
  induction list with
  | nil => simpa [Catalog.insertByDraft] using h
  | cons first rest ih =>
    simp only [Catalog.insertByDraft] at h
    split at h
    · exact List.mem_cons.mp h
    · rcases List.mem_cons.mp h with rfl | h
      · exact Or.inr List.mem_cons_self
      · exact (ih h).imp_right (List.mem_cons_of_mem _)

theorem mem_applicable {entry : CatalogEntry} {key : String} {active : DraftSet}
    (h : entry ∈ Catalog.applicable key active) : entry ∈ Catalog.entries ∧ entry.key = key := by
  have hsorted : ∀ (list sorted : List CatalogEntry),
      entry ∈ list.foldl (fun sorted entry => Catalog.insertByDraft entry sorted) sorted →
      entry ∈ list ∨ entry ∈ sorted := by
    intro list
    induction list with
    | nil => exact fun _ h => Or.inr h
    | cons first rest ih =>
      intro sorted h
      rcases ih _ h with h | h
      · exact Or.inl (List.mem_cons_of_mem _ h)
      · rcases mem_insertByDraft h with rfl | h
        · exact Or.inl List.mem_cons_self
        · exact Or.inr h
  rcases hsorted _ _ (List.mem_filter.mp h).1 with h | h
  · obtain ⟨hm, hk⟩ := List.mem_filter.mp h
    exact ⟨hm, by simpa using hk⟩
  · simp at h

/-- Keys of one kind that are spelled differently hold no schemas. -/
theorem holdsSchemas_of_kind : ∀ a ∈ Catalog.entries, ∀ b ∈ Catalog.entries,
    a.kind = b.kind → a.key ≠ b.key → holdsSchemas a.reading = false := by
  decide +kernel

theorem nodes_eq_nil_of_plain {active : DraftSet} {builder : Builder} {site : Site}
    (hp : holdsSchemas site.entry.reading = false) {s s' : Session} {k : Keyword Schema}
    (h : Runs (keyword load active builder site) s (.ok (some k)) s') : k.nodes = [] := by
  have hg : Gathers load builder.draft (fun _ _ => False) True
      (keyword load active builder site) []
      (fun found => [] ++ found.toList.flatMap Keyword.nodes) (fun _ => False) := by
    apply keyword_gathers rfl
    intro place hplace
    cases hr : site.entry.reading <;> rw [hr] at hp hplace <;>
      first | exact absurd hp (by decide) | simp [nestedIn] at hplace
  simpa using hg.held_subset h

/-! ## Members -/

theorem nodes_put_subset (b : Builder) (kind : KeywordKind) (k : Keyword Schema) :
    (b.put kind k).nodes ⊆ b.nodes ++ k.nodes := by
  intro s hs
  obtain ⟨entry, hentry, hs⟩ := List.mem_flatMap.mp hs
  rcases Entries.mem_insert hentry with rfl | hentry
  · exact List.mem_append_right _ hs
  · exact List.mem_append_left _ (List.mem_flatMap.mpr ⟨entry, hentry, hs⟩)

/-- A keyword that displaces none with nested schemas leaves all of them in place. -/
theorem subset_nodes_put (b : Builder) (kind : KeywordKind) (k : Keyword Schema)
    (h : ∀ old, b.keyword? kind = some old → old.nodes = []) :
    b.nodes ++ k.nodes ⊆ (b.put kind k).nodes := by
  have hput : ∀ entries : List (KeywordKind × Keyword Schema),
      (∀ old, Entries.get? kind entries = some old → old.nodes = []) →
      entries.flatMap (fun entry => entry.2.nodes) ++ k.nodes ⊆
        (Entries.insert kind k entries).flatMap fun entry => entry.2.nodes := by
    intro entries
    induction entries with
    | nil => simp [Entries.insert]
    | cons entry rest ih =>
      obtain ⟨other, old⟩ := entry
      intro hold
      simp only [Entries.insert]
      split
      · rename_i heq
        have hnone : old.nodes = [] := hold old (by simp [Entries.get?, heq])
        simp [hnone, List.append_subset]
      · rename_i hne
        split
        · simp [List.append_subset]
        · have hrest := ih fun o ho => hold o (by simpa [Entries.get?, hne] using ho)
          rw [List.append_subset] at hrest
          simp only [List.flatMap_cons, List.append_assoc, List.append_subset]
          have hright := List.subset_append_right old.nodes
            ((Entries.insert kind k rest).flatMap fun entry => entry.2.nodes)
          exact ⟨List.subset_append_left _ _, List.Subset.trans hrest.1 hright,
            List.Subset.trans hrest.2 hright⟩
  exact hput b.keywords h

/-- A step that changes no more of a builder than the keywords of one key. -/
structure Keeps (key : String) (before after : Builder) : Prop where
  location : after.location = before.location
  draft : after.draft = before.draft
  plain : before.reference = none ∧ before.boolean = none →
    after.reference = none ∧ after.boolean = none
  keyword : ∀ kind k, after.keyword? kind = some k → before.keyword? kind = some k ∨
    ∃ entry ∈ Catalog.entries, entry.key = key ∧ entry.kind = kind ∧
      (holdsSchemas entry.reading = false → k.nodes = [])

theorem Keeps.refl (key : String) (b : Builder) : Keeps key b b :=
  ⟨rfl, rfl, id, fun _ _ => Or.inl⟩

theorem tryCandidates_keeps {active : DraftSet} {object : List (String × Json)} {key : String}
    {location : Location} {value : Json} {builder after : Builder}
    {candidates : List CatalogEntry} {s s' : Session}
    (hc : ∀ entry ∈ candidates, entry ∈ Catalog.entries ∧ entry.key = key)
    (h : Runs (tryCandidates load active object location value builder candidates) s
      (.ok after) s') : Keeps key builder after := by
  induction candidates generalizing s with
  | nil =>
    obtain ⟨ha, _⟩ := runs_pure.mp h
    cases ha
    exact .refl _ _
  | cons entry rest ih =>
    rcases runs_bind.mp h with ⟨found, s₁, hk, hr⟩ | ⟨_, _, he⟩
    · cases found with
      | none => exact ih (fun e he => hc e (List.mem_cons_of_mem _ he)) hr
      | some k =>
        obtain ⟨ha, _⟩ := runs_pure.mp hr
        cases ha
        obtain ⟨hm, hkey⟩ := hc entry List.mem_cons_self
        refine ⟨rfl, rfl, fun hp => ⟨hp.1, by simp [Builder.put, hp.2]⟩, fun kind k' hk' => ?_⟩
        rw [Builder.keyword?, Builder.put, Entries.get?_insert] at hk'
        split at hk'
        · rename_i hkind
          cases hk'
          exact Or.inr ⟨entry, hm, hkey, hkind.symm, fun hp => nodes_eq_nil_of_plain hp hk⟩
        · exact Or.inl hk'
    · cases he

theorem member_keeps {active : DraftSet} {object : List (String × Json)} {key : String}
    {value : Json} {builder after : Builder} {s s' : Session}
    (h : Runs (member load active object key value builder) s (.ok after) s') :
    Keeps key builder after := by
  unfold member at h
  dsimp only at h
  split at h
  · rcases runs_bind.mp h with ⟨_, _, hg, h⟩ | ⟨_, _, he⟩
    · split at h
      · rcases runs_bind.mp h with ⟨_, _, _, h⟩ | ⟨_, _, he⟩
        · obtain ⟨ha, _⟩ := runs_pure.mp h
          cases ha
          exact .refl _ _
        · cases he
      · obtain ⟨ha, _⟩ := runs_pure.mp h
        cases ha
        exact ⟨rfl, rfl, id, fun _ _ => Or.inl⟩
    · cases he
  · split at h
    · rcases runs_bind.mp h with ⟨_, _, _, h⟩ | ⟨_, _, he⟩
      · obtain ⟨ha, _⟩ := runs_pure.mp h
        cases ha
        exact .refl _ _
      · cases he
    · exact tryCandidates_keeps (fun e he => mem_applicable (List.mem_filter.mp he).1) h

theorem tryCandidates_gathers {intact : Prop} {active : DraftSet}
    {object : List (String × Json)} {location : Location} {value : Json} {builder : Builder}
    {candidates : List CatalogEntry} (hd : builder.draft = draft)
    (ha : ∀ entry ∈ candidates, ∀ place ∈ nestedIn active entry.reading location value,
      asked place.1 place.2)
    (hfresh : intact → ∀ entry ∈ candidates, ∀ k,
      builder.keyword? entry.kind = some k → k.nodes = []) :
    Gathers load draft asked intact
      (tryCandidates load active object location value builder candidates) builder.nodes
      Builder.nodes (fun _ => False) := by
  induction candidates generalizing intact with
  | nil => exact gathers_pure (by simp) (by simp)
  | cons entry rest ih =>
    unfold tryCandidates
    apply Gathers.bind (keyword_gathers hd (ha entry List.mem_cons_self))
    rintro (_ | k)
    · have hrest := @ih (intact ∧ ¬False)
        (fun e he => ha e (List.mem_cons_of_mem _ he))
        (fun hi e he => hfresh hi.1 e (List.mem_cons_of_mem _ he))
      simpa using hrest
    · refine gathers_pure ?_ fun hi => ⟨id, ?_⟩
      · simpa using nodes_put_subset builder entry.kind k
      · simpa using subset_nodes_put builder entry.kind k
          (hfresh hi.1 entry List.mem_cons_self)

theorem forM_malformed_gathers {intact : Prop} {base : List Schema} {kind : IssueKind}
    {location : Location} {message : CatalogEntry → String} (entries : List CatalogEntry)
    (hk : kind.isFatal = false) :
    Gathers load draft asked intact
      (entries.forM fun entry => malformed kind location (message entry)) base (fun _ => base)
      (fun _ => False) := by
  induction entries generalizing intact with
  | nil => exact gathers_pure (by simp) (by simp)
  | cons entry rest ih =>
    exact Gathers.bind (gathers_malformed hk) fun _ => ih

/-- The keywords of some keys hold no schemas yet. -/
def Fresh (keys : List String) (b : Builder) : Prop :=
  ∀ entry ∈ Catalog.entries, entry.key ∈ keys →
    ∀ k, b.keyword? entry.kind = some k → k.nodes = []

theorem member_gathers {intact : Prop} {active : DraftSet} {object : List (String × Json)}
    {key : String} {value : Json} {builder : Builder} (hd : builder.draft = draft)
    (ha : ∀ place ∈ nested active builder.location [(key, value)], asked place.1 place.2)
    (hfresh : intact → Fresh [key] builder) :
    Gathers load draft asked intact (member load active object key value builder)
      builder.nodes Builder.nodes (fun _ => False) := by
  unfold member
  dsimp only
  split
  · apply Gathers.bind gathers_get
    intro s
    split
    · exact Gathers.bind (gathers_issue rfl) fun _ => gathers_pure (by simp) (by simp)
    · exact gathers_pure (by simp) (by simp)
  · split
    · exact Gathers.bind (forM_malformed_gathers _ rfl) fun _ =>
        gathers_pure (by simp) (by simp)
    · apply tryCandidates_gathers hd
      · intro entry he place hp
        exact ha place (mem_nested List.mem_cons_self he hp)
      · intro hi entry he
        obtain ⟨hm, hk⟩ := mem_applicable (List.mem_filter.mp he).1
        exact hfresh hi entry hm (by simp [hk])

theorem Keeps.fresh {key : String} {rest : List String} {before after : Builder}
    (h : Keeps key before after) (hkey : key ∉ rest) (hf : Fresh (key :: rest) before) :
    Fresh rest after := by
  intro entry hentry hk k hget
  rcases h.keyword _ _ hget with hold | ⟨other, hother, hkey', hkind, hplain⟩
  · exact hf entry hentry (List.mem_cons_of_mem _ hk) k hold
  · apply hplain
    apply holdsSchemas_of_kind other hother entry hentry hkind
    rw [hkey']
    rintro rfl
    exact hkey hk

/-- Reading members makes an object. -/
theorem members_body {active : DraftSet} {object list : List (String × Json)}
    {builder after : Builder} {s s' : Session}
    (hp : builder.reference = none ∧ builder.boolean = none)
    (h : Runs (members load active object list builder) s (.ok after) s') :
    after.body = .object after.keywords after.extra := by
  induction list generalizing builder s with
  | nil =>
    obtain ⟨ha, _⟩ := runs_pure.mp h
    cases ha
    simp [Builder.body, hp.1, hp.2]
  | cons entry rest ih =>
    obtain ⟨key, value⟩ := entry
    rcases runs_bind.mp h with ⟨next, s₁, hm, h⟩ | ⟨_, _, he⟩
    · exact ih ((member_keeps hm).plain hp) h
    · cases he

/-- The reading of an object's members, put together. -/
theorem members_gathers {intact : Prop} {active : DraftSet} {object : List (String × Json)}
    {list : List (String × Json)} {builder : Builder} (hd : builder.draft = draft)
    (ha : ∀ place ∈ nested active builder.location list, asked place.1 place.2)
    (hi : intact → (Entries.keys list).Nodup ∧ Fresh (Entries.keys list) builder) :
    Gathers load draft asked intact (members load active object list builder) builder.nodes
      Builder.nodes (fun _ => False) := by
  induction list generalizing intact builder with
  | nil => exact gathers_pure (by simp) (by simp)
  | cons entry rest ih =>
    obtain ⟨key, value⟩ := entry
    unfold members
    have hhere : Gathers load draft asked intact (member load active object key value builder)
        builder.nodes Builder.nodes (fun _ => False) := by
      apply member_gathers hd
      · intro place hp
        exact ha place (by simpa [nested] using Or.inl hp)
      · intro hintact entry hentry hk
        exact (hi hintact).2 entry hentry (by simp [Entries.keys, List.mem_singleton.mp hk])
    apply hhere.bind_of_runs
    intro s after s' hr
    have hkeeps := member_keeps hr
    apply ih (hkeeps.draft.trans hd)
    · rw [hkeeps.location]
      intro place hp
      exact ha place (by simpa [nested] using Or.inr hp)
    · rintro ⟨hintact, _⟩
      obtain ⟨hnodup, hfresh⟩ := hi hintact
      obtain ⟨hkey, hnodup⟩ := List.nodup_cons.mp hnodup
      exact ⟨hnodup, hkeeps.fresh hkey hfresh⟩

end Digest
end SchemaAtlas
